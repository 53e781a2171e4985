import LiteRTOS.Core.Layout
import LiteRTOS.Library.Run

/-!
# Context switches

The system of a processor and the threads that `OSThread_Start` has set up. Between two runs of
`PendSV_Handler` the thread that runs changes its registers, its own stack and any memory but the
stacks of the other threads, the pointers in the control blocks and `OS_Curr`. A run of
`PendSV_Handler` may begin at any time at which interrupts are enabled, and `OS_Next` may then
point to any of the threads. A history variable records the processor and its memory at the last
preemption of each thread.

## Main definitions

* `Core`, `Layout.Step`, `Layout.Init`: the system, its steps and its initial states.
* `Layout.Resumes`: a dispatch gives a thread the registers and the stack it had when it was last
  preempted, or those it starts with.
* `Layout.Saved`, `Layout.Inv`: the invariant.

## Main results

* `Layout.Inv.step`: what one step preserves and what it gives to the thread dispatched.
* `Layout.integer_context_preserved`: threads without floating-point instructions always resume as
  they were.
* `Layout.Inv.pendSVHandler_represents`: the instructions implement `pendSVHandler` on the kernel's
  variables.
-/

namespace LiteRTOS

open ByteMemory

/-! ### The system -/

/-- The processor with its memory, the thread that runs, which is `none` while `main` runs, and the
processor at the last preemption of each thread. -/
structure Core (ι : Type*) where
  cpu : Cpu
  curr : Option ι
  preempted : ι → Option Cpu

/-- The events: the running thread works and comes to a state of the processor, or PendSV is
taken and `OS_Next` points to a thread. -/
inductive Core.Event (ι : Type*)
  | work (cpu : Cpu)
  | pendSV (t : ι)

/-- A property of the switch to `t`, required of the events that are switches. -/
def Core.Event.Switches {ι : Type*} (P : ι → Prop) : Core.Event ι → Prop
  | .work _ => True
  | .pendSV t => P t

/-- The thread that a switch dispatches. -/
def Core.Event.target {ι : Type*} : Core.Event ι → Option ι
  | .work _ => none
  | .pendSV t => some t

/-- The last preemption of the thread `u`, when the running thread is preempted now. -/
def Core.preempt {ι : Type*} [DecidableEq ι] (c : Core ι) (u : ι) : Option Cpu :=
  if c.curr = some u then some c.cpu else c.preempted u

namespace Layout

variable {ι : Type*} (L : Layout ι) (ts : List ι)

/-- What the running thread `o` may do between two runs of `PendSV_Handler`. Changing a
floating-point register sets CONTROL.FPCA, and only an exception return clears it. -/
structure Works (o : Option ι) (c c' : Cpu) : Prop where
  osCurr : SameOn L.osCurr 4 c.mem c'.mem
  tcb : ∀ t, SameOn (L.tcb t) 4 c.mem c'.mem
  stack : ∀ t, o ≠ some t → SameOn (L.stkStorage (some t)) (L.stkSize (some t)).toNat c.mem c'.mem
  valid : c'.Valid
  room : L.HasRoom o c'.sp c'.saveSize
  lspact : c'.lspact = c.lspact
  fpca : c'.fpca = false → c.fpca = false ∧ c'.s = c.s

/-- The steps of the system. -/
inductive Step [DecidableEq ι] : Core ι → Core.Event ι → Core ι → Prop
  | work {c : Core ι} {cpu : Cpu} (h : L.Works c.curr c.cpu cpu) : Step c (.work cpu) { c with cpu }
  | pendSV {c : Core ι} {t : ι} (ht : t ∈ ts) (hnext : load32 c.cpu.mem L.osNext = L.tcb t)
      (hmask : c.cpu.primask = false) :
      Step c (.pendSV t) ⟨pendSV L.osCurr L.osNext c.cpu, some t, c.preempt⟩

variable {L ts}

theorem Step.unique [DecidableEq ι] (c : Core ι) (e : Core.Event ι) (c₁ c₂ : Core ι)
    (h₁ : L.Step ts c e c₁) (h₂ : L.Step ts c e c₂) : c₁ = c₂ := by
  cases h₁ <;> cases h₂ <;> rfl

variable (L ts)

/-- The initial states: `main` runs on its stack, no thread has run, and the memory is `m`. -/
structure Init (m : ByteMemory) (c : Core ι) : Prop where
  mem : c.cpu.mem = m
  curr : c.curr = none
  preempted : ∀ t, c.preempted t = none
  valid : c.cpu.Valid
  room : L.HasRoom none c.cpu.sp c.cpu.saveSize
  lspact : c.cpu.lspact = false

/-- The state `c'` of the processor in which the switch to `t` from the state `c` ends is right: a
thread that has run before has the registers, and at and above SP the stack, that it had when it was
last preempted, and any other one has the registers that it starts with. -/
structure Resumes [DecidableEq ι] (c : Core ι) (t : ι) (c' : Cpu) : Prop where
  context : ∀ x, c.preempt t = some x → c'.toContext = x.toContext
  stack : ∀ x, c.preempt t = some x → SameOn x.sp (L.above (some t) x.sp) x.mem c'.mem
  first : c.preempt t = none → c'.toContext = L.startContext t

/-! ### The invariant -/

/-- The control block of `t` points to a saved block with the registers `x` in its storage. -/
structure Saved (m : ByteMemory) (t : ι) (x : Context) : Prop where
  tcb : load32 m (L.tcb t) = (x.sp &&& ~~~4#32) - 0x40
  context : unstack m ((x.sp &&& ~~~4#32) - 0x40) false = x
  valid : x.Valid
  room : L.HasRoom (some t) x.sp 0x40

/-- What remains of the state `x` in which `t` was preempted. -/
structure Kept (c : Cpu) (t : ι) (x : Cpu) : Prop where
  stack : SameOn x.sp (L.above (some t) x.sp) x.mem c.mem
  fpca : x.fpca = false
  s : c.fpca = false → c.s = x.s

/-- The registers with which a thread goes on, given the state in which it was preempted. -/
def contextOf (o : Option Cpu) (t : ι) : Context :=
  match o with
  | some x => x.toContext
  | none => L.startContext t

/-- `OS_Curr` is the thread that runs, it has room on its stack, and every other thread has its
registers and its stack saved in a basic frame. -/
structure Inv (c : Core ι) : Prop where
  osCurr : load32 c.cpu.mem L.osCurr = c.curr.elim 0 L.tcb
  valid : c.cpu.Valid
  room : L.HasRoom c.curr c.cpu.sp c.cpu.saveSize
  lspact : c.cpu.lspact = false
  saved : ∀ t ∈ ts, c.curr ≠ some t → L.Saved c.cpu.mem t (L.contextOf (c.preempted t) t)
  kept : ∀ t ∈ ts, c.curr ≠ some t → ∀ x, c.preempted t = some x → L.Kept c.cpu t x

variable {L ts} {c c' : Core ι} {t u : ι}

theorem Saved.of_sameOn {m m' : ByteMemory} {x : Context} (h : L.Saved m t x)
    (htcb : SameOn (L.tcb t) 4 m m')
    (hstack : SameOn (L.stkStorage (some t)) (L.stkSize (some t)).toNat m m') :
    L.Saved m' t x where
  tcb := htcb.load32_eq.trans h.tcb
  context := (unstack_congr (hstack.sub h.room.sub) false).trans h.context
  valid := h.valid
  room := h.room

theorem startContext_valid (t : ι) : (L.startContext t).Valid where
  sp := by
    have htop : (L.startContext t).sp.toNat = _ := L.toNat_top t
    omega
  pc := by rw [startContext, LiteRTOS.startContext, BitVec.and_assoc, BitVec.and_self]
  xpsr := show (1#32 <<< 24) &&& ~~~(1#32 <<< 9) = 1#32 <<< 24 by decide

/-- A thread that is set up has its first registers saved. -/
theorem Started.saved {m : ByteMemory} (h : L.Started m t) : L.Saved m t (L.startContext t) := by
  have hsp : (L.startContext t).sp &&& ~~~4#32 = L.top t := by
    have htop := L.toNat_top t
    refine BitVec.eq_of_toNat_eq ?_
    rw [toNat_and_not_four, show (L.startContext t).sp = L.top t from rfl]
    omega
  exact ⟨by rw [hsp]; exact h.tcb, by rw [hsp]; exact h.context, startContext_valid t,
    L.hasRoom_top t⟩

theorem Kept.of_sameOn {cpu cpu' x : Cpu} (h : L.Kept cpu t x)
    (hroom : L.HasRoom (some t) x.sp 0x40)
    (hstack : SameOn (L.stkStorage (some t)) (L.stkSize (some t)).toNat cpu.mem cpu'.mem)
    (hs : cpu'.fpca = false → cpu.fpca = false ∧ cpu'.s = cpu.s) : L.Kept cpu' t x where
  stack := h.stack.trans (hstack.sub hroom.above_sub)
  fpca := h.fpca
  s hfpca := (hs hfpca).2.trans (h.s (hs hfpca).1)

/-- The invariant holds in the initial states. -/
theorem Init.inv {m : ByteMemory} (h : L.Init m c) (hstarted : ∀ t ∈ ts, L.Started m t)
    (hcurr : load32 m L.osCurr = 0) : L.Inv ts c where
  osCurr := by rw [h.mem, h.curr, hcurr]; rfl
  valid := h.valid
  room := h.curr ▸ h.room
  lspact := h.lspact
  saved t ht _ := by
    rw [h.preempted t, h.mem]
    exact (hstarted t ht).saved
  kept t _ _ x hx := by
    rw [h.preempted t] at hx
    exact absurd hx (by simp)

/-- A preempted thread has its saved block in its storage. -/
theorem Inv.hasRoom_preempted (h : L.Inv ts c) (ht : t ∈ ts) (hne : c.curr ≠ some t) {x : Cpu}
    (hx : c.preempted t = some x) : L.HasRoom (some t) x.sp 0x40 := by
  have hroom := (h.saved t ht hne).room
  rwa [hx] at hroom

/-- The work of the running thread keeps the invariant. -/
theorem Inv.works (h : L.Inv ts c) {cpu : Cpu} (hw : L.Works c.curr c.cpu cpu) :
    L.Inv ts { c with cpu } where
  osCurr := hw.osCurr.load32_eq.trans h.osCurr
  valid := hw.valid
  room := hw.room
  lspact := hw.lspact.trans h.lspact
  saved t ht hne := (h.saved t ht hne).of_sameOn (hw.tcb t) (hw.stack t hne)
  kept t ht hne x hx :=
    (h.kept t ht hne x hx).of_sameOn (h.hasRoom_preempted ht hne hx) (hw.stack t hne) hw.fpca

/-- A thread may set `OS_Next`. -/
theorem Inv.works_osNext (h : L.Inv ts c) (t : ι) :
    L.Works c.curr c.cpu { c.cpu with mem := store32 c.cpu.mem L.osNext (L.tcb t) } where
  osCurr := sameOn_store32 L.curr_next.symm _
  tcb u := sameOn_store32 (L.next_tcb u) _
  stack _ _ := sameOn_store32 (L.stack_next _).symm _
  valid := h.valid
  room := h.room
  lspact := rfl
  fpca hf := ⟨hf, rfl⟩

/-- The running thread may use floating point if there is room for the extended frame. -/
theorem Inv.works_fp (h : L.Inv ts c) (hroom : L.HasRoom c.curr c.cpu.sp 0x88) (u : ι)
    (s : Fin 32 → BitVec 32) :
    L.Works c.curr c.cpu { c.cpu with
      fpca := true, s, mem := store32 c.cpu.mem L.osNext (L.tcb u) } where
  osCurr := (h.works_osNext u).osCurr
  tcb := (h.works_osNext u).tcb
  stack := (h.works_osNext u).stack
  valid := h.valid
  room := hroom
  lspact := rfl
  fpca hf := absurd hf (by simp)

/-! ### What the handler saves -/

/-- The saved block lies on the stack of the running thread. -/
theorem Inv.savePtr_sub (h : L.Inv ts c) :
    (c.cpu.savePtr - L.stkStorage c.curr).toNat + c.cpu.saveSize ≤ (L.stkSize c.curr).toNat := by
  rw [Cpu.savePtr_eq]
  exact h.room.sub

theorem Inv.blocksApart (h : L.Inv ts c) {b : BitVec 32} {n : ℕ}
    (hb : BlocksApart (L.stkStorage c.curr) (L.stkSize c.curr).toNat b n) :
    BlocksApart c.cpu.savePtr c.cpu.saveSize b n := by
  exact hb.sub (by rw [Cpu.saveSize]; omega) h.savePtr_sub

theorem Inv.savedMem_eq (h : L.Inv ts c) : savedMem L.osCurr c.cpu.exceptionEntry =
    match c.curr with
    | none => c.cpu.exceptionEntry.mem
    | some u => store32 c.cpu.pushedMem (L.tcb u) c.cpu.savePtr := by
  have hentry : load32 c.cpu.exceptionEntry.mem L.osCurr = c.curr.elim 0 L.tcb :=
    (Cpu.sameOn_exceptionEntry (h.blocksApart (L.stack_curr _))).load32_eq.trans h.osCurr
  have hpushed : load32 c.cpu.pushedMem L.osCurr = c.curr.elim 0 L.tcb :=
    (Cpu.sameOn_pushedMem (h.blocksApart (L.stack_curr _))).load32_eq.trans h.osCurr
  rw [savedMem, hentry]
  rcases hcurr : c.curr with _ | u
  · exact if_pos rfl
  · rw [hcurr] at hpushed
    rw [Option.elim_some, if_neg (L.tcb_ne_zero u)]
    exact congrArg (fun a => store32 c.cpu.pushedMem a c.cpu.savePtr) hpushed

/-- Nothing changes outside the stack and the control block of the running thread. -/
theorem Inv.sameOn_savedMem (h : L.Inv ts c) {b : BitVec 32} {n : ℕ}
    (hb : BlocksApart (L.stkStorage c.curr) (L.stkSize c.curr).toNat b n)
    (htcb : ∀ u, c.curr = some u → BlocksApart (L.tcb u) 4 b n) :
    SameOn b n c.cpu.mem (savedMem L.osCurr c.cpu.exceptionEntry) := by
  rw [h.savedMem_eq]
  rcases hcurr : c.curr with _ | u
  · exact Cpu.sameOn_exceptionEntry (h.blocksApart hb)
  · exact (Cpu.sameOn_pushedMem (h.blocksApart hb)).trans (sameOn_store32 (htcb u hcurr) _)

/-- The memory when `t` has become the current thread. -/
def switchedMem (L : Layout ι) (c : Core ι) (t : ι) : ByteMemory :=
  store32 (savedMem L.osCurr c.cpu.exceptionEntry) L.osCurr (L.tcb t)

theorem Inv.sameOn_switchedMem (h : L.Inv ts c) {b : BitVec 32} {n : ℕ}
    (hb : BlocksApart (L.stkStorage c.curr) (L.stkSize c.curr).toNat b n)
    (htcb : ∀ u, c.curr = some u → BlocksApart (L.tcb u) 4 b n)
    (hcurr : BlocksApart L.osCurr 4 b n) (t : ι) : SameOn b n c.cpu.mem (L.switchedMem c t) :=
  (h.sameOn_savedMem hb htcb).trans (sameOn_store32 hcurr _)

/-- On the stack of the running thread everything is as the handler has pushed it. -/
theorem Inv.sameOn_pushedMem (h : L.Inv ts c) (hu : c.curr = some u) (t : ι) :
    SameOn (L.stkStorage (some u)) (L.stkSize (some u)).toNat c.cpu.pushedMem
      (L.switchedMem c t) := by
  rw [switchedMem, h.savedMem_eq, hu]
  exact (sameOn_store32 (L.stack_tcb _ u).symm _).trans (sameOn_store32 (L.stack_curr _).symm _)

theorem Inv.load32_tcb_curr (h : L.Inv ts c) (hu : c.curr = some u) :
    load32 (savedMem L.osCurr c.cpu.exceptionEntry) (L.tcb u) = c.cpu.savePtr := by
  rw [h.savedMem_eq, hu]
  exact load32_store32_self _

/-- The saved block of the running thread holds its registers. -/
theorem Inv.unstack_curr (h : L.Inv ts c) (hu : c.curr = some u) (t : ι) :
    unstack (L.switchedMem c t) c.cpu.savePtr c.cpu.fpca = c.cpu.toContext := by
  have hsub := h.savePtr_sub
  rw [hu] at hsub
  refine unstack_of_words h.valid (c.cpu.words_pushedMem.of_sameOn ?_)
  refine (h.sameOn_pushedMem hu t).sub ?_
  have hlen : (highRegs.map c.cpu.r ++ c.cpu.basicFrame).length = 16 := by
    simp [highRegs, Cpu.basicFrame]
  have hsize := le_frameSize c.cpu.fpca
  rw [Cpu.saveSize] at hsub
  omega

/-- The extended frame of the running thread holds its floating-point registers. -/
theorem Inv.words_fpFrame (h : L.Inv ts c) (hu : c.curr = some u) (hfpca : c.cpu.fpca = true)
    (hlspen : c.cpu.lspen = false) (t : ι) :
    Words (L.switchedMem c t) (c.cpu.savePtr + BitVec.ofNat 32 (4 * 16)) c.cpu.fpFrame := by
  have hsub := h.savePtr_sub
  have hsize : c.cpu.saveSize = 0x88 := by rw [Cpu.saveSize, hfpca]; rfl
  rw [hu, hsize] at hsub
  refine (c.cpu.words_fpFrame hfpca hlspen).of_sameOn ((h.sameOn_pushedMem hu t).sub ?_)
  have hadd : c.cpu.savePtr + BitVec.ofNat 32 (4 * 16) - L.stkStorage (some u) =
      (c.cpu.savePtr - L.stkStorage (some u)) + 0x40 := by
    clear hsub
    bv_omega
  rw [hadd, Cpu.length_fpFrame]
  generalize c.cpu.savePtr - L.stkStorage (some u) = d at hsub ⊢
  bv_omega

/-- The stack of the running thread is kept at and above SP. -/
theorem Inv.sameOn_above (h : L.Inv ts c) (hu : c.curr = some u) (t : ι) :
    SameOn c.cpu.sp (L.above (some u) c.cpu.sp) c.cpu.mem (L.switchedMem c t) := by
  have hroom := h.room
  rw [hu] at hroom
  have hapart := hroom.apart (by rw [Cpu.saveSize]; omega)
  rw [← Cpu.savePtr_eq] at hapart
  exact (Cpu.sameOn_pushedMem hapart).trans ((h.sameOn_pushedMem hu t).sub hroom.above_sub)

/-- If the frame is basic unless `t` is the running thread, it is basic when another one is. -/
theorem fpca_of_ne (hfpca : c.cpu.fpca = true → c.curr = some t) (hne : c.curr ≠ some t) :
    c.cpu.fpca = false :=
  Bool.eq_false_iff.mpr fun h => hne (hfpca h)

theorem saveSize_of_fpca {cpu : Cpu} (h : cpu.fpca = false) : cpu.saveSize = 0x40 := by
  rw [Cpu.saveSize, h]
  rfl

/-- A thread that is not running keeps its stack during a switch. -/
theorem Inv.sameOn_stack (h : L.Inv ts c) (hu : c.curr ≠ some u) (t : ι) :
    SameOn (L.stkStorage (some u)) (L.stkSize (some u)).toNat c.cpu.mem (L.switchedMem c t) :=
  h.sameOn_switchedMem (L.stack_stack _ _ hu) (fun v _ => (L.stack_tcb _ v).symm)
    (L.stack_curr _).symm t

theorem Inv.sameOn_tcb (h : L.Inv ts c) (hu : c.curr ≠ some u) (t : ι) :
    SameOn (L.tcb u) 4 c.cpu.mem (L.switchedMem c t) :=
  h.sameOn_switchedMem (L.stack_tcb _ u)
    (fun v hv => L.tcb_tcb v u fun heq => hu (heq ▸ hv)) (L.curr_tcb u) t

/-! ### What the handler restores -/

section Dispatch

variable [DecidableEq ι]

theorem preempt_of_eq (hu : c.curr = some u) : c.preempt u = some c.cpu := if_pos hu

theorem preempt_of_ne (hu : c.curr ≠ some u) : c.preempt u = c.preempted u := if_neg hu

variable (L) in
/-- The block from which `t` is restored. -/
def restorePtr (c : Core ι) (t : ι) : BitVec 32 :=
  ((L.contextOf (c.preempt t) t).sp &&& ~~~4#32) - BitVec.ofNat 32 c.cpu.saveSize

theorem restorePtr_of_eq (ht : c.curr = some t) : L.restorePtr c t = c.cpu.savePtr := by
  rw [restorePtr, preempt_of_eq ht, contextOf, Cpu.savePtr_eq]

/-- The pointer in the control block of `t`, and the registers that are saved there. If the frame is
extended, `t` must be the running thread. -/
theorem Inv.restore (h : L.Inv ts c) (ht : t ∈ ts) (hfpca : c.cpu.fpca = true → c.curr = some t) :
    load32 (savedMem L.osCurr c.cpu.exceptionEntry) (L.tcb t) &&& ~~~3#32 = L.restorePtr c t ∧
    unstack (L.switchedMem c t) (L.restorePtr c t) c.cpu.fpca = L.contextOf (c.preempt t) t := by
  by_cases hcurr : c.curr = some t
  · have hmod : c.cpu.saveSize % 4 = 0 := by
      have hsize := frameSize_mod_eight c.cpu.fpca
      rw [Cpu.saveSize]
      omega
    rw [restorePtr_of_eq hcurr, preempt_of_eq hcurr, h.load32_tcb_curr hcurr]
    refine ⟨and_not_three ?_, h.unstack_curr hcurr t⟩
    rw [Cpu.savePtr_eq]
    exact toNat_saveBlock_mod_four h.valid.sp hmod
  · have hbasic := fpca_of_ne hfpca hcurr
    have hsaved := h.saved t ht hcurr
    have htcb : ∀ u, c.curr = some u → Apart (L.tcb u) (L.tcb t) := fun u hu =>
      L.tcb_tcb u t fun heq => hcurr (heq ▸ hu)
    have hload : load32 (savedMem L.osCurr c.cpu.exceptionEntry) (L.tcb t) =
        load32 c.cpu.mem (L.tcb t) := (h.sameOn_savedMem (L.stack_tcb _ t) htcb).load32_eq
    rw [restorePtr, preempt_of_ne hcurr, saveSize_of_fpca hbasic, hbasic, hload, hsaved.tcb]
    refine ⟨and_not_three (toNat_saveBlock_mod_four hsaved.valid.sp rfl), ?_⟩
    exact (unstack_congr ((h.sameOn_stack hcurr t).sub hsaved.room.sub) false).trans hsaved.context

/-- The processor after the switch to `t`. -/
theorem Inv.pendSV_eq (h : L.Inv ts c) (ht : t ∈ ts) (hnext : load32 c.cpu.mem L.osNext = L.tcb t)
    (hfpca : c.cpu.fpca = true → c.curr = some t) :
    pendSV L.osCurr L.osNext c.cpu =
      { toContext := L.contextOf (c.preempt t) t
        primask := false
        fpca := c.cpu.fpca
        lspen := c.cpu.lspen
        lspact := false
        s := fun i => if c.cpu.fpca && !c.cpu.lspen && i < 16 then
          word (L.switchedMem c t) (L.restorePtr c t) (16 + i) else c.cpu.s i
        fpscr := if c.cpu.fpca && !c.cpu.lspen then
          word (L.switchedMem c t) (L.restorePtr c t) 32 else c.cpu.fpscr
        mem := L.switchedMem c t } := by
  have hnext' : load32 (savedMem L.osCurr c.cpu.exceptionEntry) L.osNext = L.tcb t :=
    (h.sameOn_savedMem (L.stack_next _) fun u _ => (L.next_tcb u).symm).load32_eq.trans hnext
  obtain ⟨hptr, hcontext⟩ := h.restore ht hfpca
  rw [← hcontext]
  exact LiteRTOS.pendSV_eq L.osCurr L.osNext c.cpu hnext' hptr rfl

/-- The floating-point registers after the switch to `t` are those of the running thread: either no
floating-point context is active, or it is restored from the frame of the same thread. -/
theorem Inv.s_pendSV (h : L.Inv ts c) (ht : t ∈ ts) (hnext : load32 c.cpu.mem L.osNext = L.tcb t)
    (hfpca : c.cpu.fpca = true → c.curr = some t) :
    (pendSV L.osCurr L.osNext c.cpu).s = c.cpu.s := by
  rw [h.pendSV_eq ht hnext hfpca]
  funext i
  change (if _ then _ else _) = _
  split_ifs with hfp
  · obtain ⟨hfp, hi⟩ := Bool.and_eq_true_iff.mp hfp
    obtain ⟨hactive, hlspen⟩ := Bool.and_eq_true_iff.mp hfp
    have hcurr := hfpca hactive
    have hword := (h.words_fpFrame hcurr hactive (Bool.not_eq_true' _ ▸ hlspen) t).eq_of_getElem?
      (c.cpu.getElem?_fpFrame (of_decide_eq_true hi))
    rw [word_add] at hword
    rwa [restorePtr_of_eq hcurr]
  · rfl

/-- After a switch every thread but the one dispatched is saved. -/
theorem Inv.saved_switchedMem (h : L.Inv ts c) (hfpca : c.cpu.fpca = true → c.curr = some t)
    (hu : u ∈ ts) (hne : u ≠ t) :
    L.Saved (L.switchedMem c t) u (L.contextOf (c.preempt u) u) := by
  by_cases hcurr : c.curr = some u
  · have hbasic : c.cpu.fpca = false :=
      fpca_of_ne hfpca fun ht => hne (Option.some.inj (hcurr.symm.trans ht))
    have hptr : c.cpu.savePtr = (c.cpu.sp &&& ~~~4#32) - 0x40 := by
      rw [Cpu.savePtr_eq, saveSize_of_fpca hbasic]
      rfl
    have hcontext := h.unstack_curr hcurr t
    have hroom := h.room
    rw [hptr, hbasic] at hcontext
    rw [hcurr, saveSize_of_fpca hbasic] at hroom
    rw [preempt_of_eq hcurr, contextOf]
    refine ⟨?_, hcontext, h.valid, hroom⟩
    rw [← hptr, ← h.load32_tcb_curr hcurr]
    exact load32_store32_of_apart (L.curr_tcb u) _
  · rw [preempt_of_ne hcurr]
    exact (h.saved u hu hcurr).of_sameOn (h.sameOn_tcb hcurr t) (h.sameOn_stack hcurr t)

/-- A switch keeps the invariant. -/
theorem Inv.pendSV (h : L.Inv ts c) (ht : t ∈ ts) (hnext : load32 c.cpu.mem L.osNext = L.tcb t)
    (hfpca : c.cpu.fpca = true → c.curr = some t) :
    L.Inv ts ⟨pendSV L.osCurr L.osNext c.cpu, some t, c.preempt⟩ := by
  have hs := h.s_pendSV ht hnext hfpca
  have heq := h.pendSV_eq ht hnext hfpca
  generalize LiteRTOS.pendSV L.osCurr L.osNext c.cpu = cpu at hs heq ⊢
  have hmem : cpu.mem = L.switchedMem c t := by rw [heq]
  have hcontext : cpu.toContext = L.contextOf (c.preempt t) t := by rw [heq]
  have hactive : cpu.fpca = c.cpu.fpca := by rw [heq]
  have hlspact : cpu.lspact = false := by rw [heq]
  have hself : cpu.Valid ∧ L.HasRoom (some t) cpu.sp cpu.saveSize := by
    have hsize : cpu.saveSize = c.cpu.saveSize := by rw [Cpu.saveSize, hactive, Cpu.saveSize]
    rw [hcontext, hsize]
    by_cases hcurr : c.curr = some t
    · rw [preempt_of_eq hcurr, contextOf, ← hcurr]
      exact ⟨h.valid, h.room⟩
    · have hsaved := h.saved t ht hcurr
      rw [preempt_of_ne hcurr, saveSize_of_fpca (fpca_of_ne hfpca hcurr)]
      exact ⟨hsaved.valid, hsaved.room⟩
  refine ⟨?_, hself.1, hself.2, hlspact, fun u hu hne => ?_, fun u hu hne x hx => ?_⟩
  · change load32 cpu.mem L.osCurr = L.tcb t
    rw [hmem]
    exact load32_store32_self _
  · change L.Saved cpu.mem u _
    rw [hmem]
    exact h.saved_switchedMem hfpca hu fun heq => hne (congrArg some heq.symm)
  · by_cases hcurr : c.curr = some u
    · obtain rfl : c.cpu = x := Option.some.inj ((preempt_of_eq hcurr).symm.trans hx)
      refine ⟨?_, fpca_of_ne hfpca fun heq => hne (heq.symm.trans hcurr), fun _ => hs⟩
      rw [hmem]
      exact h.sameOn_above hcurr t
    · have hpre : c.preempted u = some x := (preempt_of_ne hcurr).symm.trans hx
      have hroom := h.hasRoom_preempted hu hcurr hpre
      have hstack := h.sameOn_stack hcurr t
      rw [← hmem] at hstack
      exact (h.kept u hu hcurr x hpre).of_sameOn hroom hstack fun hf => ⟨hactive ▸ hf, hs⟩

/-- A switch gives the thread dispatched the registers and the stack it had. -/
theorem Inv.resumes (h : L.Inv ts c) (ht : t ∈ ts) (hnext : load32 c.cpu.mem L.osNext = L.tcb t)
    (hfpca : c.cpu.fpca = true → c.curr = some t) :
    L.Resumes c t (LiteRTOS.pendSV L.osCurr L.osNext c.cpu) := by
  have heq := h.pendSV_eq ht hnext hfpca
  generalize LiteRTOS.pendSV L.osCurr L.osNext c.cpu = cpu at heq ⊢
  have hmem : cpu.mem = L.switchedMem c t := by rw [heq]
  have hcontext : cpu.toContext = L.contextOf (c.preempt t) t := by rw [heq]
  refine ⟨fun x hx => ?_, fun x hx => ?_, fun hnone => ?_⟩
  · rw [hcontext, hx]
    rfl
  · rw [hmem]
    by_cases hcurr : c.curr = some t
    · obtain rfl : c.cpu = x := Option.some.inj ((preempt_of_eq hcurr).symm.trans hx)
      exact h.sameOn_above hcurr t
    · have hpre : c.preempted t = some x := (preempt_of_ne hcurr).symm.trans hx
      have hsub := (h.hasRoom_preempted ht hcurr hpre).above_sub
      exact (h.kept t ht hcurr x hpre).stack.trans ((h.sameOn_stack hcurr t).sub hsub)
  · rw [hcontext, hnone]
    rfl

/-! ### Runs -/

/-- One step keeps the invariant, and gives a thread dispatched what it had, if it is no switch to
another thread with an active floating-point context. -/
theorem Inv.step {e : Core.Event ι} (h : L.Inv ts c)
    (hfpca : e.Switches fun t => c.cpu.fpca = true → c.curr = some t) (hstep : L.Step ts c e c') :
    L.Inv ts c' ∧ e.Switches fun t => L.Resumes c t (LiteRTOS.pendSV L.osCurr L.osNext c.cpu) := by
  cases hstep with
  | work hw => exact ⟨h.works hw, trivial⟩
  | pendSV ht hnext _ => exact ⟨h.pendSV ht hnext hfpca, h.resumes ht hnext hfpca⟩

/-- Let no floating-point context ever be active. Then every switch gives the thread dispatched the
registers and the stack with which it was last preempted, or its first registers, for any list of
threads and in every run. -/
theorem integer_context_preserved (L : Layout ι) (ts : List ι) {m₀ : ByteMemory}
    (hcurr : load32 m₀ L.osCurr = 0) :
    ∃ m, L.setUp ts m₀ = .ok m ∧ ∀ c₀ es c, L.Init m c₀ → Run (L.Step ts) c₀ es c →
      Run.EveryStep (L.Step ts) (fun c _ => c.cpu.fpca = false) c₀ es →
      Run.EveryStep (L.Step ts)
        (fun c e => e.Switches fun t => L.Resumes c t (LiteRTOS.pendSV L.osCurr L.osNext c.cpu))
        c₀ es := by
  obtain ⟨m, hm, hstarted, hcurr', -⟩ := L.exists_setUp ts m₀
  refine ⟨m, hm, fun c₀ es c hinit hrun hint => ?_⟩
  refine Run.EveryStep.of_invariant Step.unique (fun c e c' hinv hbasic hstep => ?_) hrun hint
    (hinit.inv hstarted (hcurr'.trans hcurr))
  refine Inv.step hinv ?_ hstep
  rcases e with _ | t
  · trivial
  · exact fun hactive => absurd (hbasic.symm.trans hactive) Bool.false_ne_true

/-- With interrupts enabled any thread can be dispatched. -/
theorem Inv.exists_switch (h : L.Inv ts c) (hmask : c.cpu.primask = false)
    (hbasic : c.cpu.fpca = false) (ht : t ∈ ts) :
    ∃ d c', L.Step ts c (.work d.cpu) d ∧ L.Step ts d (.pendSV t) c' ∧ d.cpu.fpca = false ∧
      L.Inv ts c' ∧ c'.curr = some t ∧ c'.cpu.primask = false ∧ c'.cpu.fpca = false ∧
      d.curr = c.curr ∧ d.preempted = c.preempted ∧ L.Resumes d t c'.cpu := by
  obtain ⟨d, hd⟩ : ∃ d : Core ι, d = { c with
    cpu := { c.cpu with mem := store32 c.cpu.mem L.osNext (L.tcb t) } } := ⟨_, rfl⟩
  have hwork : L.Step ts c (.work d.cpu) d := by
    rw [hd]
    exact .work (h.works_osNext t)
  have hinv : L.Inv ts d := hd ▸ h.works (h.works_osNext t)
  have hcurr : d.curr = c.curr := by rw [hd]
  have hpre : d.preempted = c.preempted := by rw [hd]
  have hnext : load32 d.cpu.mem L.osNext = L.tcb t := by rw [hd, load32_store32_self]
  have hmask' : d.cpu.primask = false := by rw [hd, hmask]
  have hbasic' : d.cpu.fpca = false := by rw [hd, hbasic]
  have hactive : d.cpu.fpca = true → d.curr = some t :=
    fun hf => absurd (hbasic'.symm.trans hf) Bool.false_ne_true
  have heq := hinv.pendSV_eq ht hnext hactive
  have hswitch := Step.pendSV ht hnext hmask'
  have hinv' := hinv.pendSV ht hnext hactive
  have hresumes := hinv.resumes ht hnext hactive
  generalize LiteRTOS.pendSV L.osCurr L.osNext d.cpu = cpu at heq hswitch hinv' hresumes
  refine ⟨d, ⟨cpu, some t, d.preempt⟩, hwork, hswitch, hbasic', hinv', rfl, ?_, ?_, hcurr, hpre,
    hresumes⟩
  · rw [heq]
  · rw [heq, hbasic']

/-- The threads may be dispatched in any order. -/
theorem Inv.exists_run (h : L.Inv ts c) (hmask : c.cpu.primask = false)
    (hbasic : c.cpu.fpca = false) {us : List ι} (hus : ∀ u ∈ us, u ∈ ts) :
    ∃ es c', Run (L.Step ts) c es c' ∧ es.filterMap Core.Event.target = us ∧
      Run.EveryStep (L.Step ts) (fun c _ => c.cpu.fpca = false) c es := by
  induction us generalizing c with
  | nil => exact ⟨[], c, .nil c, rfl, Run.everyStep_nil⟩
  | cons u us ih =>
    obtain ⟨d, c₁, hwork, hswitch, hd, hinv, -, hmask₁, hbasic₁, -⟩ :=
      h.exists_switch hmask hbasic (hus u List.mem_cons_self)
    obtain ⟨es, c', hrun, htargets, hall⟩ :=
      ih hinv hmask₁ hbasic₁ fun v hv => hus v (List.mem_cons_of_mem _ hv)
    refine ⟨.work d.cpu :: .pendSV u :: es, c', .cons hwork (.cons hswitch hrun), ?_, ?_⟩
    · exact congrArg (List.cons u) htargets
    · rw [Run.everyStep_cons Step.unique hwork, Run.everyStep_cons Step.unique hswitch]
      exact ⟨hbasic, hd, hall⟩

end Dispatch

/-! ### The kernel state -/

/-- The kernel state `k` has the values of `OS_Curr`, `OS_Next` and PRIMASK, where the address of
the control block of the thread `t` is `ptr t`. -/
structure Represents (L : Layout ι) (ptr : ι → TcbPtr) (c : Cpu) (k : Kernel) : Prop where
  osCurr : ∃ o : Option ι, k.osCurr = o.map ptr ∧ load32 c.mem L.osCurr = o.elim 0 L.tcb
  osNext : ∃ o : Option ι, k.osNext = o.map ptr ∧ load32 c.mem L.osNext = o.elim 0 L.tcb
  primask : k.primask = c.primask

theorem tcb_injective (L : Layout ι) : Function.Injective L.tcb := by
  intro t u htu
  by_contra hne
  have h := (L.tcb_tcb t u hne).1
  rw [htu, BitVec.sub_self] at h
  exact absurd h (by decide)

/-- The instructions of the handler do to the kernel's variables what `pendSVHandler` does. -/
theorem Inv.pendSVHandler_represents (h : L.Inv ts c) {ptr : ι → TcbPtr} {k : Kernel}
    (hnext : load32 c.cpu.mem L.osNext = L.tcb t) (hrep : L.Represents ptr c.cpu k) :
    ∃ k', pendSVHandler k = .ok k' ∧
      L.Represents ptr (LiteRTOS.pendSV L.osCurr L.osNext c.cpu) k' := by
  obtain ⟨o, ho, hload⟩ := hrep.osNext
  have ht : o = some t := by
    rw [hnext] at hload
    rcases o with _ | u
    · exact absurd hload (L.tcb_ne_zero t)
    · exact congrArg some (L.tcb_injective hload.symm)
  have hosNext : k.osNext = some (ptr t) := by rw [ho, ht]; rfl
  have hsame : SameOn L.osNext 4 c.cpu.mem (savedMem L.osCurr c.cpu.exceptionEntry) :=
    h.sameOn_savedMem (L.stack_next _) fun u _ => (L.next_tcb u).symm
  have heq := LiteRTOS.pendSV_eq L.osCurr L.osNext c.cpu (hsame.load32_eq.trans hnext) rfl rfl
  have hnext' : load32 (L.switchedMem c t) L.osNext = L.tcb t :=
    (load32_store32_of_apart L.curr_next _).trans (hsame.load32_eq.trans hnext)
  refine ⟨_, pendSVHandler_eq hosNext, ?_⟩
  rw [heq]
  exact ⟨⟨some t, rfl, load32_store32_self _⟩, ⟨some t, hosNext, hnext'⟩, rfl⟩

/-! ### Two threads -/

/-- Two threads and `main`, with a kilobyte of stack each. -/
def exampleLayout : Layout Bool where
  osCurr := 0x20000000
  osNext := 0x20000004
  tcb t := bif t then 0x20000014 else 0x20000008
  handler t := bif t then 0x08000201 else 0x08000101
  stkStorage o := o.elim 0x20001000 fun t => bif t then 0x20001800 else 0x20001400
  stkSize _ := 0x400
  tcb_ne_zero := by decide
  curr_next := by decide
  curr_tcb := by decide
  next_tcb := by decide
  tcb_tcb := by decide
  stack_curr o := by rcases o with _ | _ | _ <;> decide
  stack_next o := by rcases o with _ | _ | _ <;> decide
  stack_tcb o := by rcases o with _ | _ | _ <;> decide
  stack_stack o o' := by rcases o with _ | _ | _ <;> rcases o' with _ | _ | _ <;> decide
  stack_pos := by decide
  stack_end := by decide
  stack_room := by decide

/-- The registers of `main` with an empty stack. -/
def exampleContext : Context where
  r _ := 0
  sp := 0x20001400
  lr := 0xFFFFFFFF
  pc := 0x08000400
  xpsr := 1#32 <<< 24

/-- `main` in the memory `m`. -/
def exampleCore (m : ByteMemory) : Core Bool where
  cpu :=
    { toContext := exampleContext
      primask := false
      fpca := false
      lspen := true
      lspact := false
      s := fun _ => 0
      fpscr := 0
      mem := m }
  curr := none
  preempted _ := none

theorem exampleCore_init (m : ByteMemory) : exampleLayout.Init m (exampleCore m) where
  mem := rfl
  curr := rfl
  preempted _ := rfl
  valid := show exampleContext.Valid from ⟨by decide, by decide, by decide⟩
  room := show exampleLayout.HasRoom none exampleContext.sp 0x40 by decide
  lspact := rfl

/-- The first thread runs, is preempted by the second one and resumes as it was. -/
theorem integer_context_preserved_two : ∃ m c₀ es c, exampleLayout.Init m c₀ ∧
    Run (exampleLayout.Step [false, true]) c₀ es c ∧
    es.filterMap Core.Event.target = [false, true, false] ∧
    Run.EveryStep (exampleLayout.Step [false, true]) (fun c e => e.Switches fun t =>
      exampleLayout.Resumes c t
        (LiteRTOS.pendSV exampleLayout.osCurr exampleLayout.osNext c.cpu)) c₀ es := by
  have hcurr : load32 (fun _ => 0) exampleLayout.osCurr = 0 := by decide
  obtain ⟨m, hm, h⟩ := integer_context_preserved exampleLayout [false, true] hcurr
  obtain ⟨m', hm', hstarted, hcurr', -⟩ := exampleLayout.exists_setUp [false, true] fun _ => 0
  obtain rfl : m = m' := Except.ok.inj (hm.symm.trans hm')
  have hinit := exampleCore_init m
  have htargets : ∀ u ∈ [false, true, false], u ∈ [false, true] := by simp
  obtain ⟨es, c, hrun, hes, hint⟩ :=
    (hinit.inv hstarted (hcurr'.trans hcurr)).exists_run rfl rfl htargets
  exact ⟨m, _, es, c, hinit, hrun, hes, h _ es c hinit hrun hint⟩

end Layout

end LiteRTOS
