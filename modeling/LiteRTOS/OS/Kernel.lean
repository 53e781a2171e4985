import LiteRTOS.Mcal.Gpio
import LiteRTOS.Mcal.Mcu
import Mathlib.Logic.Function.Basic

/-!
# The kernel state and the functions of `Os.c`

The state of the kernel is the value of its global variables, of the thread control blocks and of
the peripherals its functions touch. A function of the source is a function on states with a
result in `Except Fault`: a fault is a step whose behaviour C leaves undefined, or the loop of
`OS_Tick` not coming to its end.

The stack pointer that a control block saves and the stack memory are no part of this state.
They are modelled, with the instructions of `PendSV_Handler`, over the memory of the processor in
`LiteRTOS.Core`; the functions here are what `OSThread_Start` and `PendSV_Handler` do to the
kernel's variables.

## Main definitions

* `TcbPtr`, `OSThread`, `Kernel`, `Fault`: the data.
* `osSched`, `osMsDelay`, `osTick`, `osOnStartup`, `osRun`, `osThreadStart`, `osInit`,
  `pendSVHandler`: the functions of `Os.c`.
* `sysTickHandler`: `SysTick_Handler` of `Gpt.c`.
-/

namespace LiteRTOS

/-! ### Data -/

/-- The address of an `OSThread` object. A pointer that may be null is an `Option TcbPtr`. -/
inductive TcbPtr
  /-- `&IdleThread`. -/
  | idleThread
  /-- The address of any other control block. -/
  | thread (n : ℕ)
  deriving DecidableEq, Repr

/-- A thread control block, without the saved stack pointer. -/
@[ext]
structure OSThread where
  /-- `Prio`, a `uint8_t`. -/
  prio : BitVec 8
  /-- `TimeOut`, the down-counter of a delay. -/
  timeOut : BitVec 32
  deriving DecidableEq, Repr

/-- A step that C leaves undefined, or a loop without end. -/
inductive Fault
  /-- A null `OSThread` pointer is followed. -/
  | nullPointer
  /-- `__builtin_clz(0)`. -/
  | clzZero
  /-- A 32-bit shift by 32 or more. -/
  | shiftRange
  /-- An index above 32 into `OS_Thread`. -/
  | tableBounds
  /-- The loop of `OS_Tick` runs for ever. -/
  | noEnd
  deriving DecidableEq, Repr

/-- The variables of the kernel and of the peripherals that it uses. -/
@[ext]
structure Kernel where
  /-- `OS_Curr`, the current thread. -/
  osCurr : Option TcbPtr
  /-- `OS_Next`, the thread to switch to. -/
  osNext : Option TcbPtr
  /-- `OS_Thread[32U + 1U]`, the threads started so far. -/
  osThread : Fin 33 → Option TcbPtr
  /-- `OS_ReadySet`. -/
  osReadySet : BitVec 32
  /-- `OS_DelayedSet`. -/
  osDelayedSet : BitVec 32
  /-- The control blocks. -/
  tcb : TcbPtr → OSThread
  /-- `millisec_counter` of `Gpt.c`. -/
  millisecCounter : BitVec 64
  /-- PRIMASK: interrupts are disabled. -/
  primask : Bool
  /-- The System Control Space, with ICSR and the priority registers. -/
  scs : ByteMemory
  /-- GPIO port C. -/
  portC : PortC

namespace Kernel

/-- PendSV is pending. -/
def pendSV (k : Kernel) : Bool := pendSVSet k.scs

/-- `Disable_Irq`. -/
def disableIrq (k : Kernel) : Kernel := { k with primask := true }

/-- `Enable_Irq`. -/
def enableIrq (k : Kernel) : Kernel := { k with primask := false }

/-- `OS_Thread[i]`. -/
def threadAt (k : Kernel) (i : ℕ) : Except Fault (Option TcbPtr) :=
  if h : i < 33 then .ok (k.osThread ⟨i, h⟩) else .error .tableBounds

/-- `t->TimeOut = v`. -/
def setTimeOut (k : Kernel) (t : TcbPtr) (v : BitVec 32) : Kernel :=
  { k with tcb := Function.update k.tcb t { k.tcb t with timeOut := v } }

/-- `t->Prio = v`. -/
def setPrio (k : Kernel) (t : TcbPtr) (v : BitVec 8) : Kernel :=
  { k with tcb := Function.update k.tcb t { k.tcb t with prio := v } }

end Kernel

/-- Following an `OSThread` pointer. -/
def deref : Option TcbPtr → Except Fault TcbPtr
  | some t => .ok t
  | none => .error .nullPointer

/-- `1U << n`. -/
def shiftOne (n : BitVec 32) : Except Fault (BitVec 32) :=
  if n.toNat < 32 then .ok (1#32 <<< n.toNat) else .error .shiftRange

/-- `1U << (Prio - 1U)`. -/
def threadBit (prio : BitVec 8) : Except Fault (BitVec 32) := shiftOne (prio.setWidth 32 - 1)

/-- `LOG2`, the one-based position of the highest set bit. -/
def log2 (x : BitVec 32) : Except Fault (BitVec 32) :=
  if x = 0 then .error .clzZero else .ok (32 - x.clz)

/-! ### `Os.c` -/

/-- `OS_Sched`. -/
def osSched (k : Kernel) : Except Fault Kernel := do
  let nextThread ←
    if k.osReadySet = 0 then k.threadAt 0
    else do
      let index ← log2 k.osReadySet
      k.threadAt index.toNat
  if nextThread ≠ k.osCurr then
    return { k with osNext := nextThread, scs := setPendSV k.scs }
  else
    return k

/-- `OS_msDelay`. -/
def osMsDelay (ticks : BitVec 32) (k : Kernel) : Except Fault Kernel := do
  let k := k.disableIrq
  let curr ← deref k.osCurr
  let k := k.setTimeOut curr ticks
  let bit ← threadBit (k.tcb curr).prio
  let k := { k with osReadySet := k.osReadySet &&& ~~~bit }
  let k := { k with osDelayedSet := k.osDelayedSet ||| bit }
  let k ← osSched k
  return k.enableIrq

/-- The `while` loop of `OS_Tick`, cut off after `fuel` iterations; `pending` is
`pendingDelayedThreads`. -/
def osTickLoop : ℕ → BitVec 32 → Kernel → Except Fault Kernel
  | fuel, pending, k =>
    if pending = 0 then return k
    else match fuel with
      | 0 => throw .noEnd
      | fuel + 1 => do
        let index ← log2 pending
        let thread ← deref (← k.threadAt index.toNat)
        let bit ← threadBit (k.tcb thread).prio
        let k := k.setTimeOut thread ((k.tcb thread).timeOut - 1)
        let k :=
          if (k.tcb thread).timeOut = 0 then
            { k with osReadySet := k.osReadySet ||| bit, osDelayedSet := k.osDelayedSet &&& ~~~bit }
          else k
        osTickLoop fuel (pending &&& ~~~bit) k

/-- `OS_Tick`. Every iteration that does not clear the highest bit of `pendingDelayedThreads`
is repeated for ever, so 32 iterations are enough for the runs that end. -/
def osTick (k : Kernel) : Except Fault Kernel := osTickLoop 32 k.osDelayedSet k

/-- `OS_OnStartup`. -/
def osOnStartup (k : Kernel) : Kernel := { k with scs := nvicSetPriority sysTickIRQn 0 k.scs }

/-- `OS_Run`. -/
def osRun (k : Kernel) : Except Fault Kernel := do
  let k := osOnStartup k
  let k ← osSched k.disableIrq
  return k.enableIrq

/-- `OSThread_Start` from the registration of the thread on. -/
def osThreadStart (t : TcbPtr) (prio : BitVec 8) (k : Kernel) : Except Fault Kernel := do
  if h : prio.toNat < 33 then
    let k := { k with osThread := Function.update k.osThread ⟨prio.toNat, h⟩ (some t) }
    let k := k.setPrio t prio
    if prio > 0 then
      let bit ← threadBit prio
      return { k with osReadySet := k.osReadySet ||| bit }
    else
      return k
  else
    throw .tableBounds

/-- `OS_Init`: the store to `NVIC_SYS_PRI3_R`, and the idle thread. -/
def osInit (k : Kernel) : Except Fault Kernel :=
  osThreadStart .idleThread 0
    { k with scs := k.scs.store32 nvicSysPri3R (k.scs.load32 nvicSysPri3R ||| 0xFF#32 <<< 16) }

/-- `PendSV_Handler`, taken when its pending bit is set: `OS_Curr = OS_Next`. -/
def pendSVHandler (k : Kernel) : Except Fault Kernel := do
  let k := { k with scs := clearPendSV k.scs }
  let k := k.disableIrq
  let next ← deref k.osNext
  let k := { k with osCurr := some next }
  return k.enableIrq

theorem pendSVHandler_eq {k : Kernel} {t : TcbPtr} (ht : k.osNext = some t) : pendSVHandler k =
    .ok { k with scs := clearPendSV k.scs, osCurr := some t, primask := false } := by
  change (do
    let next ← deref k.osNext
    _) = _
  rw [ht]
  rfl

/-! ### `Gpt.c` -/

/-- `SysTick_Handler`. -/
def sysTickHandler (k : Kernel) : Except Fault Kernel := do
  let k := { k with portC := pc2On k.portC }
  let k := { k with millisecCounter := k.millisecCounter + 1 }
  let k ← osTick k
  let k ← osSched k.disableIrq
  let k := k.enableIrq
  return { k with portC := pc2Off k.portC }

end LiteRTOS
