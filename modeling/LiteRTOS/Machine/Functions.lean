import LiteRTOS.Machine.Image

/-!
# The functions of the kernel on memory

The functions of `Os.c` and `Gpt.c` once more, as loads and stores at the addresses of an image: a
pointer is an address, null is zero, an entry of `OS_Thread` is a word at four times its index and
a member of a control block is read at its offset. A function fails where C leaves its behaviour
undefined, as on the level of `LiteRTOS.OS.Kernel`.

`PendSV_Handler` is no function on this state. It is the instruction sequence of
`LiteRTOS.Core.PendSV`.

## Main definitions

* `Mcu`: the memory, PRIMASK and the peripherals.
* `Image.osSched`, `Image.osMsDelay`, `Image.osTick`, `Image.osRun`, `Image.osThreadStart`,
  `Image.osInit`, `Image.sysTickHandler`, `Image.gptGetTimeElapsed`.
-/

namespace LiteRTOS

open ByteMemory

/-- What the functions of the kernel read and write. -/
structure Mcu where
  mem : ByteMemory
  /-- PRIMASK: interrupts are disabled. -/
  primask : Bool
  /-- The System Control Space. -/
  scs : ByteMemory
  /-- GPIO port C. -/
  portC : PortC

namespace Mcu

/-- The word at an address. -/
def load (s : Mcu) (a : BitVec 32) : BitVec 32 := load32 s.mem a

/-- The byte at an address. -/
def loadByte (s : Mcu) (a : BitVec 32) : BitVec 8 := load8 s.mem a

/-- Write a word. -/
def store (s : Mcu) (a v : BitVec 32) : Mcu := { s with mem := store32 s.mem a v }

/-- Write a byte. -/
def storeByte (s : Mcu) (a : BitVec 32) (v : BitVec 8) : Mcu := { s with mem := store8 s.mem a v }

/-- `Disable_Irq`. -/
def disableIrq (s : Mcu) : Mcu := { s with primask := true }

/-- `Enable_Irq`. -/
def enableIrq (s : Mcu) : Mcu := { s with primask := false }

end Mcu

/-- Following a pointer. -/
def derefAddr (p : BitVec 32) : Except Fault (BitVec 32) :=
  if p = 0 then .error .nullPointer else .ok p

namespace Image

variable {ι : Type*} (V : Image ι)

/-! ### `Os.c` -/

/-- `OS_Thread[i]`. -/
def threadAt (s : Mcu) (i : ℕ) : Except Fault (BitVec 32) :=
  if i < 33 then .ok (s.load (V.addr .osThread + BitVec.ofNat 32 (4 * i)))
  else .error .tableBounds

/-- `OS_Sched`. -/
def osSched (s : Mcu) : Except Fault Mcu := do
  let readySet := s.load (V.var .osReadySet)
  let nextThread ←
    if readySet = 0 then V.threadAt s 0
    else do
      let index ← log2 readySet
      V.threadAt s index.toNat
  if nextThread ≠ s.load (V.var .osCurr) then
    let s := s.store (V.var .osNext) nextThread
    return { s with scs := setPendSV s.scs }
  else
    return s

/-- `OS_msDelay`. -/
def osMsDelay (ticks : BitVec 32) (s : Mcu) : Except Fault Mcu := do
  let s := s.disableIrq
  let curr ← derefAddr (s.load (V.var .osCurr))
  let s := s.store (curr + 8) ticks
  let bit ← threadBit (s.loadByte (curr + 4))
  let s := s.store (V.var .osReadySet) (s.load (V.var .osReadySet) &&& ~~~bit)
  let s := s.store (V.var .osDelayedSet) (s.load (V.var .osDelayedSet) ||| bit)
  let s ← V.osSched s
  return s.enableIrq

/-- The `while` loop of `OS_Tick`, cut off after `fuel` iterations. -/
def osTickLoop : ℕ → BitVec 32 → Mcu → Except Fault Mcu
  | fuel, pending, s =>
    if pending = 0 then return s
    else match fuel with
      | 0 => throw .noEnd
      | fuel + 1 => do
        let index ← log2 pending
        let thread ← derefAddr (← V.threadAt s index.toNat)
        let bit ← threadBit (s.loadByte (thread + 4))
        let s := s.store (thread + 8) (s.load (thread + 8) - 1)
        let s :=
          if s.load (thread + 8) = 0 then
            let s := s.store (V.var .osReadySet) (s.load (V.var .osReadySet) ||| bit)
            s.store (V.var .osDelayedSet) (s.load (V.var .osDelayedSet) &&& ~~~bit)
          else s
        osTickLoop fuel (pending &&& ~~~bit) s

/-- `OS_Tick`. -/
def osTick (s : Mcu) : Except Fault Mcu := V.osTickLoop 32 (s.load (V.var .osDelayedSet)) s

/-- `OS_Run`, with `OS_OnStartup`. -/
def osRun (s : Mcu) : Except Fault Mcu := do
  let s := { s with scs := nvicSetPriority sysTickIRQn 0 s.scs }
  let s ← V.osSched s.disableIrq
  return s.enableIrq

/-- The registration of a thread by `OSThread_Start`. -/
def register (t : ι) (prio : BitVec 8) (s : Mcu) : Except Fault Mcu := do
  if prio.toNat < 33 then
    let s := s.store (V.addr .osThread + BitVec.ofNat 32 (4 * prio.toNat)) (V.tcb t)
    let s := s.storeByte (V.tcb t + 4) prio
    if prio > 0 then
      let bit ← threadBit prio
      return s.store (V.var .osReadySet) (s.load (V.var .osReadySet) ||| bit)
    else
      return s
  else
    throw .tableBounds

/-- `OSThread_Start`: the stack of the thread is set up, and then the thread is registered. -/
def osThreadStart (t : ι) (prio : BitVec 8) (s : Mcu) : Except Fault Mcu := do
  let m ← V.threads.start t s.mem
  V.register t prio { s with mem := m }

/-- `OS_Init`. -/
def osInit (s : Mcu) : Except Fault Mcu :=
  V.osThreadStart V.idle 0
    { s with scs := s.scs.store32 nvicSysPri3R (s.scs.load32 nvicSysPri3R ||| 0xFF#32 <<< 16) }

/-! ### `Gpt.c` -/

/-- `Gpt_GetTimeElapsed`, with no exception taken while the counter is read. -/
def gptGetTimeElapsed (s : Mcu) : BitVec 64 :=
  s.load (V.var .millisecHigh) ++ s.load (V.var .millisecLow)

/-- `millisec_counter = v`. -/
def setMillisec (v : BitVec 64) (s : Mcu) : Mcu :=
  (s.store (V.var .millisecLow) (v.extractLsb' 0 32)).store (V.var .millisecHigh)
    (v.extractLsb' 32 32)

/-- `SysTick_Handler`. -/
def sysTickHandler (s : Mcu) : Except Fault Mcu := do
  let s := { s with portC := pc2On s.portC }
  let s := V.setMillisec (V.gptGetTimeElapsed s + 1) s
  let s ← V.osTick s
  let s ← V.osSched s.disableIrq
  let s := s.enableIrq
  return { s with portC := pc2Off s.portC }

end Image

end LiteRTOS
