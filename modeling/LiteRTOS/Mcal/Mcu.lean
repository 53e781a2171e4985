import LiteRTOS.Library.ByteMemory

/-!
# The System Control Space and the functions of `Mcu.c` that write it

The registers of the interrupt controller, of the system control block and of the SysTick timer
lie in the System Control Space. It is modelled as byte memory, since `Mcu.h` and `Mcu.c` reach
it through `uint32_t` and through `uint8_t` pointers.

`ICSR |= x` stores the word it has read with more bits set. The bits of ICSR that are read as one
and act when written as one are pending bits, so that writing them back changes nothing and the
register behaves as memory here.

## Main definitions

* `scbIcsr`, `nvicSysPri3R`, `nvicIprBase`, `stkCtrl`: the addresses that the macros of `Mcu.h`
  stand for.
* `nvicSetPriority`: `NVIC_SetPriority`.
* `sysTickInit`: `SysTick_Init`.
-/

namespace LiteRTOS

open ByteMemory

/-! ### Addresses, `Mcu.h` -/

/-- `p + n` for a `uint32_t` pointer `p`: pointer arithmetic counts words. -/
def wordPtrAdd (p n : BitVec 32) : BitVec 32 := p + 4 * n

/-- `CPUID_BASE`. -/
def cpuidBase : BitVec 32 := 0xE000ED00

/-- `ICSR_BASE`. -/
def icsrBase : BitVec 32 := 0xE000ED04

/-- `STK_BASE`. -/
def stkBase : BitVec 32 := 0xE000E010

/-- The address of `ICSR`. -/
def scbIcsr : BitVec 32 := icsrBase + 0x00

/-- `NVIC_IPR_BASE`. -/
def nvicIprBase : BitVec 32 := icsrBase

/-- The address of `NVIC_SYS_PRI3_R`, the macro `(*((volatile uint32_t *)CPUID_BASE + 0x20UL))`. -/
def nvicSysPri3R : BitVec 32 := wordPtrAdd cpuidBase 0x20

/-- The address of `STK_CTRL`. -/
def stkCtrl : BitVec 32 := stkBase + 0x00

/-- The address of `STK_LOAD`. -/
def stkLoad : BitVec 32 := stkBase + 0x04

/-- The address of `STK_VAL`. -/
def stkVal : BitVec 32 := stkBase + 0x08

/-- `SysTick_IRQn`. -/
def sysTickIRQn : BitVec 32 := -1

/-! ### Functions, `Mcu.c` -/

/-- `NVIC_SetPriority`, as far as the address it writes: one branch for the negative numbers of
the system exceptions, one for the peripheral interrupts. -/
def nvicPriorityAddr (irqn : BitVec 32) : BitVec 32 :=
  if irqn.slt 0 then 0xE000ED18 + ((irqn &&& 0xF) - 4) * 1 else nvicIprBase + irqn

/-- `NVIC_SetPriority`: the priority shifted into the upper four bits of one byte. -/
def nvicSetPriority (irqn priority : BitVec 32) (scs : ByteMemory) : ByteMemory :=
  store8 scs (nvicPriorityAddr irqn) (((priority &&& 0xF) <<< 4).setWidth 8)

/-- `SysTick_Init`: a period of one millisecond, clocked by the processor, with the interrupt
and then the counter enabled. -/
def sysTickInit (scs : ByteMemory) : ByteMemory :=
  let scs := store32 scs stkCtrl 0x00000000
  let scs := store32 scs stkLoad 180000
  let scs := store32 scs stkVal 0x00000000
  let scs := store32 scs stkCtrl 0x00000004
  let scs := store32 scs stkCtrl (load32 scs stkCtrl ||| 2)
  store32 scs stkCtrl (load32 scs stkCtrl ||| 1#32 <<< 0)

/-! ### The PendSV pending bit -/

/-- PENDSVSET, bit 28 of ICSR. -/
def pendSVSet (scs : ByteMemory) : Bool := (load32 scs scbIcsr).getLsbD 28

/-- `ICSR |= (1UL << 28U)`. -/
def setPendSV (scs : ByteMemory) : ByteMemory :=
  store32 scs scbIcsr (load32 scs scbIcsr ||| 1#32 <<< 28)

/-- What the processor does to ICSR when it takes the PendSV exception. -/
def clearPendSV (scs : ByteMemory) : ByteMemory :=
  store32 scs scbIcsr (load32 scs scbIcsr &&& ~~~(1#32 <<< 28))

@[simp] theorem pendSVSet_setPendSV (scs : ByteMemory) : pendSVSet (setPendSV scs) = true := by
  simp [pendSVSet, setPendSV]

@[simp] theorem pendSVSet_clearPendSV (scs : ByteMemory) : pendSVSet (clearPendSV scs) = false := by
  simp [pendSVSet, clearPendSV]

/-- A word apart from ICSR is no pending bit. -/
theorem pendSVSet_store32 {a : BitVec 32} (ha : Apart a scbIcsr) (scs : ByteMemory)
    (v : BitVec 32) : pendSVSet (store32 scs a v) = pendSVSet scs := by
  rw [pendSVSet, load32_store32_of_apart ha, pendSVSet]

/-- The priority byte of SysTick is no part of ICSR. -/
@[simp] theorem pendSVSet_nvicSetPriority_sysTick (priority : BitVec 32) (scs : ByteMemory) :
    pendSVSet (nvicSetPriority sysTickIRQn priority scs) = pendSVSet scs := by
  rw [pendSVSet, nvicSetPriority, load32_store8_of_notMem (by decide), pendSVSet]

/-- The registers of the SysTick timer are no part of ICSR. -/
theorem pendSVSet_sysTickInit (scs : ByteMemory) : pendSVSet (sysTickInit scs) = pendSVSet scs := by
  have hctrl : Apart stkCtrl scbIcsr := by decide
  have hload : Apart stkLoad scbIcsr := by decide
  have hval : Apart stkVal scbIcsr := by decide
  simp only [sysTickInit, pendSVSet_store32 hctrl, pendSVSet_store32 hload, pendSVSet_store32 hval]

/-- SysTick requests interrupts: its counter and its interrupt are enabled. -/
def sysTickEnabled (scs : ByteMemory) : Bool :=
  (load32 scs stkCtrl).getLsbD 0 && (load32 scs stkCtrl).getLsbD 1

/-- The counter and its interrupt are enabled. -/
theorem sysTickEnabled_sysTickInit (scs : ByteMemory) :
    sysTickEnabled (sysTickInit scs) = true := by
  simp [sysTickEnabled, sysTickInit]

end LiteRTOS
