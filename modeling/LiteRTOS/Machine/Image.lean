import LiteRTOS.Library.Placement
import LiteRTOS.OS.StartOrder

/-!
# The image of a program in memory

The global variables of `Os.c` and `Gpt.c`, the control blocks of the threads and the stacks are
the objects that the linker places, each with bytes of its own. The scalar variables are parts of
these objects: the entries of `OS_Thread`, the two words of the 64-bit counter and the members of a
control block, which on this processor are at the offsets 0, 4 and 8.

## Main definitions

* `Object`, `Image`: the objects of a program, and their placement.
* `Image.threads`: the view of an image that has only what a context switch uses.
* `Var`, `Image.vars`: the scalar variables, and their placement.
-/

namespace LiteRTOS

open ByteMemory

/-- The objects of a program with the threads `ι`. The stack `none` is the one of `main`. -/
inductive Object (ι : Type*)
  /-- `OS_Curr`. -/
  | osCurr
  /-- `OS_Next`. -/
  | osNext
  /-- `OS_Thread[32U + 1U]`. -/
  | osThread
  /-- `OS_ReadySet`. -/
  | osReadySet
  /-- `OS_DelayedSet`. -/
  | osDelayedSet
  /-- `millisec_counter`. -/
  | millisecCounter
  /-- A control block. -/
  | tcb (t : ι)
  /-- A stack. -/
  | stack (o : Option ι)
  deriving DecidableEq

/-- The size of an object in bytes. -/
def Object.bytes {ι : Type*} (stkSize : Option ι → BitVec 32) : Object ι → ℕ
  | .osCurr => 4
  | .osNext => 4
  | .osThread => 4 * 33
  | .osReadySet => 4
  | .osDelayedSet => 4
  | .millisecCounter => 8
  | .tcb _ => 12
  | .stack o => (stkSize o).toNat

/-- The placement of the objects, with what the threads are started with. The control blocks have
different names in the kernel, one of the threads is the idle thread, and there is room for the
first sixteen words on each thread's stack. -/
structure Image (ι : Type*) where
  addr : Object ι → BitVec 32
  stkSize : Option ι → BitVec 32
  apart : ∀ x y, x ≠ y → BlocksApart (addr x) (x.bytes stkSize) (addr y) (y.bytes stkSize)
  tcb_ne_zero : ∀ t, addr (.tcb t) ≠ 0
  stack_pos : ∀ t, 0 < (addr (.stack (some t))).toNat
  stack_end : ∀ t, (addr (.stack (some t))).toNat + (stkSize (some t)).toNat < 2 ^ 32
  stack_room : ∀ t, (addr (.stack (some t))).toNat + 0x40 ≤
    (stackTop (addr (.stack (some t))) (stkSize (some t))).toNat
  handler : ι → BitVec 32
  ptr : ι → TcbPtr
  ptr_injective : Function.Injective ptr
  prio : ι → BitVec 8
  idle : ι
  ptr_idle : ptr idle = .idleThread

/-- The scalar variables of a program. -/
inductive Var (ι : Type*)
  | osCurr
  | osNext
  | osThread (i : Fin 33)
  | osReadySet
  | osDelayedSet
  /-- The lower word of `millisec_counter`. -/
  | millisecLow
  /-- The upper word of `millisec_counter`. -/
  | millisecHigh
  /-- `MyStckPointer`. -/
  | sp (t : ι)
  /-- `Prio`. -/
  | prio (t : ι)
  /-- `TimeOut`. -/
  | timeOut (t : ι)

namespace Var

variable {ι : Type*}

/-- The object that a variable is part of. -/
def object : Var ι → Object ι
  | .osCurr => .osCurr
  | .osNext => .osNext
  | .osThread _ => .osThread
  | .osReadySet => .osReadySet
  | .osDelayedSet => .osDelayedSet
  | .millisecLow => .millisecCounter
  | .millisecHigh => .millisecCounter
  | .sp t => .tcb t
  | .prio t => .tcb t
  | .timeOut t => .tcb t

/-- The offset of a variable in its object. -/
def offset : Var ι → ℕ
  | .osThread i => 4 * i
  | .millisecHigh => 4
  | .prio _ => 4
  | .timeOut _ => 8
  | _ => 0

/-- The size of a variable in bytes. -/
def width : Var ι → ℕ
  | .prio _ => 1
  | _ => 4

/-- Variables in one object do not overlap. -/
theorem disjoint (x y : Var ι) (hxy : x ≠ y) (hobj : x.object = y.object) :
    x.offset + x.width ≤ y.offset ∨ y.offset + y.width ≤ x.offset := by
  cases x <;> cases y <;> simp only [object, reduceCtorEq, Object.tcb.injEq] at hobj <;>
    first
    | exact absurd rfl hxy
    | exact absurd (congrArg _ hobj) hxy
    | (simp only [offset, width]; omega)
    | skip
  case osThread.osThread i j =>
    have hij : (i : ℕ) ≠ j := fun h => hxy (congrArg _ (Fin.ext h))
    simp only [offset, width]
    omega

end Var

namespace Image

variable {ι : Type*} (V : Image ι)

/-- The placement of the objects. -/
def placement : Placement (Object ι) where
  addr := V.addr
  size := Object.bytes V.stkSize
  size_le x := by
    cases x with
    | stack o => exact (V.stkSize o).isLt.le
    | _ => simp [Object.bytes]
  apart := V.apart

/-- The scalar variables in the objects. -/
def parts : V.placement.Parts (Var ι) where
  object := Var.object
  offset := Var.offset
  width := Var.width
  width_pos x := by cases x <;> exact Nat.succ_pos _
  offset_le x := by
    cases x with
    | osThread i =>
      have hi := i.isLt
      change 4 * i.val + 4 ≤ 4 * 33
      omega
    | _ => exact Nat.le_of_ble_eq_true rfl
  disjoint := Var.disjoint

/-- The placement of the variables. -/
def vars : Placement (Var ι) := V.parts.placement

/-- The address of a variable. -/
def var (x : Var ι) : BitVec 32 := V.vars.addr x

/-- The address of a control block. -/
def tcb (t : ι) : BitVec 32 := V.addr (.tcb t)

theorem tcb_ne (t : ι) : V.tcb t ≠ 0 := V.tcb_ne_zero t

theorem var_sp (t : ι) : V.var (.sp t) = V.tcb t := BitVec.add_zero _

theorem var_prio (t : ι) : V.tcb t + 4 = V.var (.prio t) := rfl

theorem var_timeOut (t : ι) : V.tcb t + 8 = V.var (.timeOut t) := rfl

theorem var_osThread {i : ℕ} (hi : i < 33) :
    V.addr .osThread + BitVec.ofNat 32 (4 * i) = V.var (.osThread ⟨i, hi⟩) := rfl

theorem apart_word {x y : Var ι} (hxy : x ≠ y) (hx : x.width = 4) (hy : y.width = 4) :
    Apart (V.var x) (V.var y) := by
  have h := V.vars.apart x y hxy
  change BlocksApart (V.var x) x.width (V.var y) y.width at h
  rwa [hx, hy] at h

theorem frame_store32 {m : ByteMemory} {x : Var ι} (hx : x.width = 4) (v : BitVec 32) :
    V.vars.Frame {x} m (store32 m (V.var x) v) :=
  Placement.frame_store32 (Set.mem_singleton x) hx v

theorem frame_store8 {m : ByteMemory} {x : Var ι} (hx : x.width = 1) (v : BitVec 8) :
    V.vars.Frame {x} m (store8 m (V.var x) v) :=
  Placement.frame_store8 (Set.mem_singleton x) hx v

/-- A stack has no byte of a variable. -/
theorem stack_var (o : Option ι) (x : Var ι) :
    BlocksApart (V.addr (.stack o)) (V.stkSize o).toNat (V.var x) x.width := by
  have hobj : x.object ≠ .stack o := by cases x <;> simp [Var.object]
  exact ((V.apart _ _ hobj).sub (V.parts.width_pos x) (V.parts.addr_sub_le x)).symm

/-- What a context switch and the start of a thread use of an image. -/
def threads : Threads ι where
  osCurr := V.var .osCurr
  osNext := V.var .osNext
  tcb := V.tcb
  handler := V.handler
  stkStorage o := V.addr (.stack o)
  stkSize := V.stkSize
  tcb_ne_zero := V.tcb_ne_zero
  curr_next := V.apart_word (by simp) rfl rfl
  curr_tcb t := V.var_sp t ▸ V.apart_word (by simp) rfl rfl
  next_tcb t := V.var_sp t ▸ V.apart_word (by simp) rfl rfl
  tcb_tcb t u htu := V.var_sp t ▸ V.var_sp u ▸ V.apart_word (by simp [htu]) rfl rfl
  stack_curr o := V.stack_var o .osCurr
  stack_next o := V.stack_var o .osNext
  stack_tcb o t := V.var_sp t ▸ V.stack_var o (.sp t)
  stack_stack o o' h := V.apart _ _ fun heq => h (Object.stack.inj heq)
  stack_pos := V.stack_pos
  stack_end := V.stack_end
  stack_room := V.stack_room
  ptr := V.ptr
  prio := V.prio
  idle := V.idle
  ptr_idle := V.ptr_idle

theorem tcb_injective : Function.Injective V.tcb := fun t _ htu =>
  Object.tcb.inj (V.placement.addr_injective_of_pos (x := .tcb t) (Nat.succ_pos _) htu)

end Image

/-! ### Three threads -/

/-- The numbers of the threads are literals of `Fin 3`. -/
instance neZero_three : NeZero 3 := ⟨by decide⟩

/-- Where the objects of a program with three threads are in RAM. -/
def exampleStart : Object (Fin 3) → ℕ
  | .osCurr => 0x20000000
  | .osNext => 0x20000004
  | .osReadySet => 0x20000008
  | .osDelayedSet => 0x2000000C
  | .millisecCounter => 0x20000010
  | .osThread => 0x20000018
  | .tcb t => 0x200000A0 + 0xC * t
  | .stack none => 0x20000400
  | .stack (some t) => 0x20000800 + 0x400 * t

/-- The objects follow one another. -/
theorem exampleStart_le (x y : Object (Fin 3)) (hxy : x ≠ y) :
    exampleStart x + x.bytes (fun _ => 0x400) ≤ exampleStart y ∨
      exampleStart y + y.bytes (fun _ => 0x400) ≤ exampleStart x := by
  rcases x with _ | _ | _ | _ | _ | _ | t | _ | t <;>
    rcases y with _ | _ | _ | _ | _ | _ | u | _ | u <;>
    simp [exampleStart, Object.bytes] at hxy ⊢ <;> omega

theorem exampleStart_bounds (x : Object (Fin 3)) : 0 < x.bytes (fun _ => 0x400) ∧
    exampleStart x + x.bytes (fun _ => 0x400) ≤ 2 ^ 32 := by
  rcases x with _ | _ | _ | _ | _ | _ | t | _ | t <;> simp [exampleStart, Object.bytes] <;> omega

/-- The idle thread and two others. -/
def exampleImage : Image (Fin 3) where
  addr x := BitVec.ofNat 32 (exampleStart x)
  stkSize _ := 0x400
  apart x y hxy := by
    obtain ⟨hx, hx'⟩ := exampleStart_bounds x
    obtain ⟨hy, hy'⟩ := exampleStart_bounds y
    rcases exampleStart_le x y hxy with h | h
    · exact blocksApart_ofNat hx hy h hy'
    · exact (blocksApart_ofNat hy hx h hx').symm
  tcb_ne_zero := by decide
  stack_pos := by decide
  stack_end := by decide
  stack_room := by decide
  handler t := 0x08000101 + 0x100 * BitVec.ofNat 32 t
  ptr t := if t = 0 then .idleThread else .thread t
  ptr_injective := by decide
  prio t := if t = 0 then 0 else if t = 1 then 3 else 2
  idle := 0
  ptr_idle := rfl

end LiteRTOS
