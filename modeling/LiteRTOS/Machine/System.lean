import LiteRTOS.Core.ContextSwitch
import LiteRTOS.Machine.Simulation

/-!
# The whole machine

The processor with its memory and peripherals runs the threads. Between two calls of the kernel the
running thread changes its registers, its own stack and any memory that is neither another stack
nor a variable of the kernel. The functions of the kernel act on the memory, and PendSV runs the
instructions of its handler. SysTick pushes on the stack of the running thread and then runs its
handler; the registers are the same after its return. A call of the kernel is one event, and this
includes `OSThread_Start`, which does not mask interrupts: exceptions inside it are left out, as
they are in the system.

Every run of the machine is a run of the system of `LiteRTOS.OS.System`, whose kernel state the
memory represents, and at the same time a run of the context switches of
`LiteRTOS.Core.ContextSwitch`. So what is proved of the two levels holds of the machine: the thread
in `OS_Curr` is the one whose registers the processor has.

## Main definitions

* `Machine`, `Machine.Event`, `Image.Step`, `Image.Init`: the machine, its steps and its initial
  states.
* `Image.Refines`: the machine is in a state of the system.

## Main results

* `Image.Refines.step`: the simulation of one step.
* `Image.machine_refines`: the simulation of all runs.
* `Image.machine_delay_blocks`: how long a delay blocks on the machine.
-/

namespace LiteRTOS

open ByteMemory

/-! ### The machine -/

/-- The processor with the state of the threads, the peripherals, and the threads started so
far with their priorities. -/
structure Machine (ι : Type*) where
  core : Core ι
  /-- The System Control Space. -/
  scs : ByteMemory
  /-- GPIO port C. -/
  portC : PortC
  started : List (ι × BitVec 8)

/-- The events of the machine. -/
inductive Machine.Event (ι : Type*)
  /-- The running thread works and leaves the processor and the pins in a state. -/
  | work (cpu : Cpu) (portC : PortC)
  /-- `OSThread_Start`, with no exception inside it, although it does not mask them. -/
  | start (t : ι) (prio : BitVec 8)
  /-- `OS_Run`. -/
  | run
  /-- The SysTick exception, which pushes on the stack. -/
  | sysTick (mem : ByteMemory)
  /-- `OS_msDelay`, called by the running thread. -/
  | delay (ticks : BitVec 32)
  /-- The PendSV exception, when `OS_Next` is the thread `t`. -/
  | pendSV (t : ι)

namespace Machine

variable {ι : Type*} (M : Machine ι)

/-- What the functions of the kernel read and write. -/
def mcu : Mcu := ⟨M.core.cpu.mem, M.core.cpu.primask, M.scs, M.portC⟩

/-- The machine after a function of the kernel. -/
def setMcu (s : Mcu) : Machine ι :=
  { M with
    core := { M.core with cpu := { M.core.cpu with mem := s.mem, primask := s.primask } }
    scs := s.scs
    portC := s.portC }

/-- The threads that are set up: the idle thread and those started so far. -/
def threads (V : Image ι) : List ι := V.idle :: M.started.map Prod.fst

/-- The word of the variable `x` has the bit of the thread `t`. -/
def HasBit (V : Image ι) (x : Var ι) (t : ι) : Prop :=
  ∃ prio, (t, prio) ∈ M.started ∧ (M.mcu.load (V.var x)).getLsbD (prio.toNat - 1) = true

/-- The exception SysTick. -/
def Event.isSysTick : Event ι → Bool
  | .sysTick _ => true
  | _ => false

/-- The event `e` is a call of `OS_msDelay` by the thread `t`. -/
def Calls (t : ι) (e : Event ι) : Prop := M.core.curr = some t ∧ ∃ ticks, e = .delay ticks

end Machine

namespace Image

variable {ι : Type*} (V : Image ι)

/-- The memories differ only in the stack of `o` below `sp`. -/
def Scratch (o : Option ι) (sp : BitVec 32) (m m' : ByteMemory) : Prop :=
  ∀ b, (sp - V.addr (.stack o)).toNat ≤ (b - V.addr (.stack o)).toNat → m' b = m b

variable {V} {k : Kernel}

/-- What is pushed on a stack changes nothing outside it. -/
theorem Scratch.sameOn {o : Option ι} {sp : BitVec 32} {m m' : ByteMemory} {n k : ℕ}
    {b : BitVec 32} (h : V.Scratch o sp m m') (hroom : V.threads.HasRoom o sp k)
    (hb : BlocksApart (V.addr (.stack o)) (V.stkSize o).toNat b n) : SameOn b n m m' :=
  fun _ hc => h _ (hroom.2.trans (hb.le_of_lt hc))

/-- The kernel state does not change where its variables do not. -/
theorem Represents.of_sameOn {x y : Mcu} (h : V.Represents x k)
    (hcurr : SameOn (V.var .osCurr) 4 x.mem y.mem)
    (hvars : ∀ v ∈ kernelVars, SameOn (V.var v) v.width x.mem y.mem) (hscs : y.scs = x.scs) :
    V.Represents y k where
  holds v := by
    by_cases hv : v ∈ kernelVars
    · exact (h.holds v).of_sameOn (hvars v hv)
    · cases v with
      | osCurr => exact (h.holds .osCurr).of_sameOn hcurr
      | sp t => trivial
      | _ => exact absurd (by simp [kernelVars]) hv
  scs := hscs.trans h.scs

theorem sameOn_var {m m' : ByteMemory} (h : V.vars.Frame kernelVars m m') {x : Var ι}
    (hx : x ∉ kernelVars) : SameOn (V.var x) x.width m m' :=
  h.sameOn hx

theorem sameOn_tcb {m m' : ByteMemory} (h : V.vars.Frame kernelVars m m') (t : ι) :
    SameOn (V.tcb t) 4 m m' :=
  V.var_sp t ▸ sameOn_var h (x := .sp t) (by simp [kernelVars])

theorem sameOn_stack {m m' : ByteMemory} (h : V.vars.Frame kernelVars m m') (o : Option ι) :
    SameOn (V.addr (.stack o)) (V.stkSize o).toNat m m' :=
  h.sameOn_of_apart fun x _ => (V.stack_var o x).symm

variable (V) [DecidableEq ι]

/-- When an event may take place. A thread may change neither the variables of the kernel nor what
belongs to the other threads, leaves PRIMASK alone and uses no floating-point instruction. The
functions of the kernel may be called as on the level of `Sys`. -/
def Enabled (M : Machine ι) : Machine.Event ι → Prop
  | .work cpu _ => V.threads.Works M.core.curr M.core.cpu cpu ∧
      (∀ x ∈ kernelVars, SameOn (V.var x) x.width M.core.cpu.mem cpu.mem) ∧
      cpu.primask = M.core.cpu.primask ∧ cpu.fpca = false
  | .start t prio => t ≠ V.idle ∧ 1 ≤ prio.toNat ∧ prio.toNat ≤ 32 ∧
      ∀ q ∈ M.started, q.1 ≠ t ∧ q.2 ≠ prio
  | .run => True
  | .sysTick mem => M.core.cpu.primask = false ∧
      V.Scratch M.core.curr M.core.cpu.sp M.core.cpu.mem mem
  | .delay _ => pendSVSet M.scs = false ∧ M.core.curr ≠ none ∧ M.core.curr ≠ some V.idle
  | .pendSV t => pendSVSet M.scs = true ∧ M.core.cpu.primask = false ∧
      load32 M.core.cpu.mem (V.var .osNext) = V.tcb t

/-- What an event does. -/
def exec (M : Machine ι) : Machine.Event ι → Except Fault (Machine ι)
  | .work cpu portC => .ok { M with core := { M.core with cpu }, portC }
  | .start t prio => (V.osThreadStart t prio M.mcu).map fun s =>
      { M.setMcu s with started := M.started ++ [(t, prio)] }
  | .run => (V.osRun M.mcu).map M.setMcu
  | .sysTick mem => (V.sysTickHandler { M.mcu with mem }).map M.setMcu
  | .delay ticks => (V.osMsDelay ticks M.mcu).map M.setMcu
  | .pendSV t => .ok { M with
      core := ⟨LiteRTOS.pendSV (V.var .osCurr) (V.var .osNext) M.core.cpu, some t, M.core.preempt⟩
      scs := clearPendSV M.scs }

/-- One step of the machine. -/
abbrev Step : Machine ι → Machine.Event ι → Machine ι → Prop := Run.Guarded V.Enabled V.exec

/-- The step of the system that an event is, if it concerns the kernel. -/
def kernelEvents : Machine.Event ι → List Event
  | .work _ _ => []
  | .start t prio => [.start (V.ptr t) prio]
  | .run => [.run]
  | .sysTick _ => [.sysTick]
  | .delay ticks => [.delay ticks]
  | .pendSV _ => [.pendSV]

/-- The state after `OS_Init` on zeroed variables, called by `main` on its stack. -/
structure Init (M : Machine ι) : Prop where
  osInit : ∃ s₀ : Mcu, (∀ x, SameOn (V.var x) x.width (fun _ => 0) s₀.mem) ∧
    s₀.scs = (fun _ => 0) ∧ V.osInit s₀ = .ok M.mcu
  curr : M.core.curr = none
  preempted : ∀ t, M.core.preempted t = none
  valid : M.core.cpu.Valid
  room : V.threads.HasRoom none M.core.cpu.sp M.core.cpu.saveSize
  primask : M.core.cpu.primask = false
  lspact : M.core.cpu.lspact = false
  fpca : M.core.cpu.fpca = false
  started : M.started = []

/-- The machine `M` is in the state `s` of the system: its memory represents the kernel, the
started threads are those of `s`, and every thread but the running one has its registers saved. A
thread that has not been started has not run. -/
structure Refines (M : Machine ι) (s : Sys) : Prop where
  represents : V.Represents M.mcu s.kernel
  primask : M.core.cpu.primask = s.kernel.primask
  inv : s.Inv
  started : s.started = M.started.map fun q => (V.ptr q.1, q.2)
  switches : V.threads.Inv (M.threads V) M.core
  fpca : M.core.cpu.fpca = false
  fresh : ∀ t ∉ M.threads V, M.core.curr ≠ some t ∧ M.core.preempted t = none

end Image

theorem Sys.step_unique (s : Sys) (e : Event) (s₁ s₂ : Sys) (h₁ : s.Step e s₁) (h₂ : s.Step e s₂) :
    s₁ = s₂ :=
  h₁.unique h₂

/-- Interrupts are enabled between the steps of the system. -/
theorem Sys.Step.primask {s s' : Sys} {e : Event} (hs : s.Step e s')
    (h : s.kernel.primask = false) : s'.kernel.primask = false := by
  have hexec := hs.exec
  cases e with
  | start t prio =>
    obtain ⟨i, hi⟩ := exists_prio_eq hs.enabled.2.1 hs.enabled.2.2.1
    exact Except.ok.inj ((osThreadStart_eq t hi).symm.trans hexec) ▸ h
  | run => exact Except.ok.inj ((osRun_eq _).symm.trans hexec) ▸ rfl
  | sysTick => exact sysTickHandler_primask hexec
  | pendSV =>
    obtain ⟨t, -, hexec⟩ := bind_eq_ok.mp hexec
    exact Except.ok.inj hexec ▸ rfl
  | delay ticks =>
    obtain ⟨t, -, hexec⟩ := bind_eq_ok.mp hexec
    obtain ⟨bit, -, hexec⟩ := bind_eq_ok.mp hexec
    obtain ⟨k, -, hexec⟩ := bind_eq_ok.mp hexec
    exact Except.ok.inj hexec ▸ rfl

theorem Sys.primask_of_run {s : Sys} {es : List Event} (hr : Run Sys.Step .init es s) :
    s.kernel.primask = false :=
  hr.invariant (P := fun s => s.kernel.primask = false) (fun _ _ _ h hs => hs.primask h) rfl

/-- A thread that has not run is set up. -/
theorem Layout.Inv.start {ι : Type*} {L : Layout ι} {ts us : List ι} {c : Core ι} {t : ι}
    {m : ByteMemory} (h : L.Inv ts c) (hus : ∀ u ∈ us, u = t ∨ u ∈ ts) (hcurr : c.curr ≠ some t)
    (hpre : c.preempted t = none) (hstarted : L.Started m t)
    (hsame : ∀ b n, BlocksApart (L.stkStorage (some t)) (L.stkSize (some t)).toNat b n →
      BlocksApart (L.tcb t) 4 b n → SameOn b n c.cpu.mem m) :
    L.Inv us { c with cpu := { c.cpu with mem := m } } := by
  have htcb (u : ι) (hut : u ≠ t) : SameOn (L.tcb u) 4 c.cpu.mem m :=
    hsame _ _ (L.stack_tcb _ u) (L.tcb_tcb t u hut.symm)
  have hstack (u : ι) (hut : u ≠ t) :
      SameOn (L.stkStorage (some u)) (L.stkSize (some u)).toNat c.cpu.mem m :=
    hsame _ _ (L.stack_stack _ _ (by simpa using hut.symm)) (L.stack_tcb _ t).symm
  refine ⟨?_, h.valid, h.room, h.lspact, fun u hu hne => ?_, fun u hu hne x hx => ?_⟩
  · exact (hsame _ _ (L.stack_curr _) (L.curr_tcb t).symm).load32_eq.trans h.osCurr
  · by_cases hut : u = t
    · subst hut
      change L.Saved m u (L.contextOf (c.preempted u) u)
      rw [hpre]
      exact hstarted.saved
    · have hmem := (hus u hu).resolve_left hut
      exact (h.saved u hmem hne).of_sameOn (htcb u hut) (hstack u hut)
  · by_cases hut : u = t
    · subst hut
      exact absurd (hpre.symm.trans hx) (by simp)
    · have hmem := (hus u hu).resolve_left hut
      exact (h.kept u hmem hne x hx).of_sameOn (h.hasRoom_preempted hmem hne hx) (hstack u hut)
        fun hf => ⟨hf, rfl⟩

namespace Image

variable {ι : Type*} {V : Image ι} {M M' : Machine ι} {s : Sys} {k' : Kernel} {t : ι}
  {e : Machine.Event ι}

/-! ### One step -/

/-- Writing to the variables of the kernel is something that a thread may do. -/
theorem works_of_frame {ts : List ι} {c : Core ι} {m : ByteMemory} (h : V.threads.Inv ts c)
    (hframe : V.vars.Frame kernelVars c.cpu.mem m) (primask : Bool) :
    V.threads.Works c.curr c.cpu { c.cpu with mem := m, primask } where
  osCurr := sameOn_var hframe (x := .osCurr) (by simp [kernelVars])
  tcb := sameOn_tcb hframe
  stack t _ := sameOn_stack hframe (some t)
  valid := h.valid
  room := h.room
  lspact := rfl
  fpca hf := ⟨hf, rfl⟩

/-- A switch changes no variable but `OS_Curr` and the saved stack pointer. -/
theorem sameOn_switchedMem {ts : List ι} {c : Core ι} (h : V.threads.Inv ts c) {x : Var ι}
    (hx : x ∈ kernelVars) (t : ι) :
    SameOn (V.var x) x.width c.cpu.mem (V.threads.switchedMem c t) := by
  refine h.sameOn_switchedMem (V.stack_var _ x) (fun u _ => ?_) (V.vars.apart _ x hx.1.symm) t
  have hapart : BlocksApart (V.var (.sp u)) 4 (V.var x) x.width :=
    V.vars.apart (.sp u) x (hx.2 u).symm
  rwa [V.var_sp] at hapart

namespace Refines

theorem of_works (h : V.Refines M s) {cpu : Cpu} {scs : ByteMemory} {portC : PortC}
    (hw : V.threads.Works M.core.curr M.core.cpu cpu) (hfpca : cpu.fpca = false)
    (hinv : Sys.Inv ⟨k', s.started⟩) (hrep : V.Represents ⟨cpu.mem, cpu.primask, scs, portC⟩ k')
    (hprimask : cpu.primask = k'.primask) :
    V.Refines { M with core := { M.core with cpu }, scs, portC } ⟨k', s.started⟩ where
  represents := hrep
  primask := hprimask
  inv := hinv
  started := h.started
  switches := h.switches.works hw
  fpca := hfpca
  fresh := h.fresh

theorem osCurr (h : V.Refines M s) : s.kernel.osCurr = M.core.curr.map V.ptr :=
  (h.represents.osCurr.eq_iff ⟨M.core.curr, rfl, rfl⟩).mpr h.switches.osCurr

theorem pendSV_eq (h : V.Refines M s) : s.kernel.pendSV = pendSVSet M.scs :=
  congrArg pendSVSet h.represents.scs.symm

/-- A thread that can run is set up. -/
theorem mem_threads (h : V.Refines M s) (hrun : s.kernel.Runnable (V.ptr t)) :
    t ∈ M.threads V := by
  rcases hrun with hidle | ⟨i, -, ht⟩
  · rw [← V.ptr_idle] at hidle
    rw [V.ptr_injective hidle]
    exact List.mem_cons_self
  · obtain ⟨prio, hmem, -⟩ := h.inv.started_of_entry i _ ht
    rw [h.started] at hmem
    obtain ⟨q, hq, heq⟩ := List.mem_map.mp hmem
    obtain rfl : q.1 = t := V.ptr_injective (congrArg Prod.fst heq)
    exact List.mem_cons_of_mem _ (List.mem_map_of_mem hq)

/-- A call of a function of the kernel. -/
theorem call (h : V.Refines M s) {e : Event} (hen : s.Enabled e) (hstart : e.starts = [])
    {x : Except Fault Mcu} (hx : Except.Rel (V.Keeps s.kernel M.mcu) (e.exec s.kernel) x) :
    ∃ y s', x = .ok y ∧ s.Step e s' ∧ V.Refines (M.setMcu y) s' := by
  obtain ⟨⟨k', l⟩, hs⟩ := h.inv.exists_step hen
  rw [hs.exec] at hx
  obtain ⟨y, hy, hk⟩ := hx.exists_of_ok
  obtain rfl : l = s.started := hs.started.trans (by rw [hstart, List.append_nil])
  refine ⟨y, _, hy, hs, ?_⟩
  exact h.of_works (works_of_frame h.switches hk.frame y.primask) h.fpca (h.inv.step hs)
    hk.represents (hk.primask h.primask)

/-- What SysTick pushes. -/
theorem scratch (h : V.Refines M s) {m : ByteMemory}
    (hm : V.Scratch M.core.curr M.core.cpu.sp M.core.cpu.mem m) :
    V.Refines (M.setMcu { M.mcu with mem := m }) s := by
  have hsame {b : BitVec 32} {n : ℕ} := hm.sameOn (b := b) (n := n) h.switches.room
  have hw : V.threads.Works M.core.curr M.core.cpu { M.core.cpu with mem := m } :=
    { osCurr := hsame (V.threads.stack_curr _)
      tcb := fun t => hsame (V.threads.stack_tcb _ t)
      stack := fun t hne => hsame (V.threads.stack_stack _ _ hne)
      valid := h.switches.valid
      room := h.switches.room
      lspact := rfl
      fpca := fun hf => ⟨hf, rfl⟩ }
  exact h.of_works hw h.fpca h.inv
    (h.represents.of_sameOn hw.osCurr (fun x _ => hsame (V.stack_var _ x)) rfl) h.primask

/-- What may be started on the machine may be started in the system. -/
theorem enabled_start (h : V.Refines M s) {prio : BitVec 8} (hne : t ≠ V.idle)
    (hpos : 1 ≤ prio.toNat) (hle : prio.toNat ≤ 32)
    (hnew : ∀ q ∈ M.started, q.1 ≠ t ∧ q.2 ≠ prio) : s.Enabled (.start (V.ptr t) prio) := by
  refine ⟨fun hidle => hne (V.ptr_injective (hidle.trans V.ptr_idle.symm)), hpos, hle, ?_⟩
  rw [h.started]
  intro q hq
  obtain ⟨q', hq', rfl⟩ := List.mem_map.mp hq
  exact ⟨fun heq => (hnew q' hq').1 (V.ptr_injective heq), (hnew q' hq').2⟩

/-- `OSThread_Start`. -/
theorem start (h : V.Refines M s) {prio : BitVec 8} (hne : t ≠ V.idle) (hpos : 1 ≤ prio.toNat)
    (hle : prio.toNat ≤ 32) (hnew : ∀ q ∈ M.started, q.1 ≠ t ∧ q.2 ≠ prio) :
    ∃ y s', V.osThreadStart t prio M.mcu = .ok y ∧ s.Step (.start (V.ptr t) prio) s' ∧
      V.Refines { M.setMcu y with started := M.started ++ [(t, prio)] } s' := by
  obtain ⟨⟨k', l⟩, hs⟩ := h.inv.exists_step (h.enabled_start hne hpos hle hnew)
  obtain rfl : l = s.started ++ [(V.ptr t, prio)] := hs.started
  obtain ⟨m, hm, hrep, hstarted, hsame⟩ := exists_start h.represents t
  have hreg := register_keeps hrep t prio
  rw [show LiteRTOS.osThreadStart (V.ptr t) prio s.kernel = .ok k' from hs.exec] at hreg
  obtain ⟨y, hy, hk⟩ := hreg.exists_of_ok
  have hfresh := h.fresh t fun hmem => by
    obtain heq | hmem := List.mem_cons.mp hmem
    · exact hne heq
    · obtain ⟨q, hq, heq⟩ := List.mem_map.mp hmem
      exact (hnew q hq).1 heq
  have hthreads (u : ι) : u ∈ V.idle :: (M.started ++ [(t, prio)]).map Prod.fst ↔
      u = t ∨ u ∈ M.threads V := by
    simp only [Machine.threads, List.map_append, List.map_cons, List.map_nil, List.mem_cons,
      List.mem_append, List.not_mem_nil, or_false]
    tauto
  have hswitches := h.switches.start (fun u hu => (hthreads u).mp hu) hfresh.1 hfresh.2 hstarted
    hsame
  refine ⟨y, _, ?_, hs, ?_⟩
  · change (do
      let m ← V.threads.start t M.core.cpu.mem
      V.register t prio { M.mcu with mem := m }) = .ok y
    rw [show V.threads.start t M.core.cpu.mem = .ok m from hm]
    exact hy
  · refine ⟨hk.represents, hk.primask h.primask, h.inv.step hs, ?_, ?_, h.fpca, fun u hu => ?_⟩
    · rw [List.map_append, ← h.started]
      rfl
    · exact hswitches.works (works_of_frame hswitches hk.frame y.primask)
    · exact h.fresh u fun hmem => hu ((hthreads u).mpr (Or.inr hmem))

/-- PendSV switches to a thread that can run. -/
theorem runnable_of_enabled (h : V.Refines M s) (hen : V.Enabled M (.pendSV t)) :
    s.kernel.osNext = some (V.ptr t) ∧ s.kernel.Runnable (V.ptr t) := by
  have hnext : s.kernel.osNext = some (V.ptr t) :=
    (h.represents.osNext.eq_iff (points_some t)).mpr hen.2.2
  obtain ⟨u, hu, hrun⟩ := h.inv.next (h.pendSV_eq.trans hen.1)
  obtain rfl : V.ptr t = u := Option.some.inj (hnext.symm.trans hu)
  exact ⟨hnext, hrun⟩

section Switch

variable [DecidableEq ι]

/-- PendSV. -/
theorem pendSV (h : V.Refines M s) (hen : V.Enabled M (.pendSV t)) : ∃ M' s',
    V.exec M (.pendSV t) = .ok M' ∧ s.Step .pendSV s' ∧ V.Refines M' s' ∧ t ∈ M.threads V ∧
      V.threads.Resumes M.core t M'.core.cpu := by
  obtain ⟨hnext', hrun⟩ := h.runnable_of_enabled hen
  obtain ⟨hpend, -, hnext⟩ := hen
  have ht := h.mem_threads hrun
  have hactive (hf : M.core.cpu.fpca = true) : M.core.curr = some t :=
    absurd (h.fpca.symm.trans hf) Bool.false_ne_true
  have hs : s.Step .pendSV ⟨_, s.started⟩ :=
    ⟨h.pendSV_eq.trans hpend, pendSVHandler_eq hnext', (List.append_nil _).symm⟩
  have hinv := h.switches.pendSV ht hnext hactive
  have hresumes := h.switches.resumes ht hnext hactive
  have heq := h.switches.pendSV_eq ht hnext hactive
  have hexec : V.exec M (.pendSV t) = .ok { M with
      core := ⟨LiteRTOS.pendSV V.threads.osCurr V.threads.osNext M.core.cpu, some t, M.core.preempt⟩
      scs := clearPendSV M.scs } := rfl
  generalize LiteRTOS.pendSV V.threads.osCurr V.threads.osNext M.core.cpu = cpu
    at hinv hresumes heq hexec
  refine ⟨_, _, hexec, hs, ⟨⟨fun x => ?_, ?_⟩, ?_, h.inv.step hs, h.started, hinv, ?_,
    fun u hu => ?_⟩, ht, hresumes⟩
  · have hmem (x : Var ι) (hx : x ∈ kernelVars) :
        SameOn (V.var x) x.width M.core.cpu.mem cpu.mem := by
      rw [heq]
      exact sameOn_switchedMem h.switches hx t
    by_cases hx : x ∈ kernelVars
    · have hold := (h.represents.holds x).of_sameOn (hmem x hx)
      cases x <;> first | exact hold | exact absurd rfl hx.1
    · cases x with
      | osCurr => exact ⟨some t, rfl, hinv.osCurr⟩
      | sp u => trivial
      | _ => exact absurd (by simp [kernelVars]) hx
  · exact congrArg clearPendSV h.represents.scs
  · change cpu.primask = false
    rw [heq]
  · change cpu.fpca = false
    rw [heq]
    exact h.fpca
  · obtain ⟨hcurr, hpre⟩ := h.fresh u hu
    refine ⟨fun heq => hu (Option.some.inj heq ▸ ht), ?_⟩
    exact (Layout.preempt_of_ne hcurr).trans hpre

/-- An event that may take place does not fault and is a step of the system, or none. -/
theorem exec (h : V.Refines M s) (hen : V.Enabled M e) : ∃ M' s',
    V.exec M e = .ok M' ∧ Run Sys.Step s (V.kernelEvents e) s' ∧ V.Refines M' s' := by
  cases e with
  | work cpu portC =>
    obtain ⟨hw, hvars, hprimask, hfpca⟩ := hen
    exact ⟨_, s, rfl, .nil s, h.of_works hw hfpca h.inv
      (h.represents.of_sameOn hw.osCurr hvars rfl) (hprimask.trans h.primask)⟩
  | start t prio =>
    obtain ⟨hne, hpos, hle, hnew⟩ := hen
    obtain ⟨y, s', hy, hs, h'⟩ := h.start hne hpos hle hnew
    exact ⟨_, s', congrArg (Except.map _) hy, .cons hs (.nil s'), h'⟩
  | run =>
    obtain ⟨y, s', hy, hs, h'⟩ := h.call (e := .run) trivial rfl (osRun_keeps h.represents)
    exact ⟨_, s', congrArg (Except.map _) hy, .cons hs (.nil s'), h'⟩
  | sysTick mem =>
    have h₁ := h.scratch hen.2
    obtain ⟨y, s', hy, hs, h'⟩ :=
      h₁.call (e := .sysTick) trivial rfl (sysTickHandler_keeps h₁.represents)
    exact ⟨_, s', congrArg (Except.map _) hy, .cons hs (.nil s'), h'⟩
  | delay ticks =>
    obtain ⟨hoff, hnone, hidle⟩ := hen
    have hen' : s.Enabled (.delay ticks) := by
      refine ⟨h.pendSV_eq.trans hoff, ?_, ?_⟩
      · simpa [h.osCurr] using hnone
      · rw [h.osCurr, ← V.ptr_idle, ← Option.map_some]
        exact fun heq => hidle (Option.map_injective V.ptr_injective heq)
    obtain ⟨y, s', hy, hs, h'⟩ := h.call hen' rfl (osMsDelay_keeps h.represents ticks)
    exact ⟨_, s', congrArg (Except.map _) hy, .cons hs (.nil s'), h'⟩
  | pendSV t =>
    obtain ⟨M', s', hM', hs, h', -, -⟩ := h.pendSV hen
    exact ⟨M', s', hM', .cons hs (.nil s'), h'⟩

end Switch

end Refines

/-- `OS_Init` on zeroed variables sets up the idle thread. -/
theorem exists_osInit {x : Mcu} (hzero : ∀ v, SameOn (V.var v) v.width (fun _ => 0) x.mem)
    (hscs : x.scs = fun _ => 0) : ∃ y, V.osInit x = .ok y ∧ V.Represents y Sys.init.kernel ∧
      V.threads.Started y.mem V.idle ∧ (x.primask = false → y.primask = false) ∧
      (x.portC = Kernel.reset.portC → y.portC = Sys.init.kernel.portC) := by
  have hreset := represents_reset hzero hscs
  let pri3 (scs : ByteMemory) :=
    scs.store32 nvicSysPri3R (scs.load32 nvicSysPri3R ||| 0xFF#32 <<< 16)
  have hpri3 : V.Represents { x with scs := pri3 x.scs }
      { Kernel.reset with scs := pri3 Kernel.reset.scs } :=
    ⟨hreset.holds, congrArg pri3 hreset.scs⟩
  obtain ⟨m, hm, hrep, hstarted, -⟩ := exists_start hpri3 V.idle
  have hreg := register_keeps hrep V.idle 0
  rw [V.ptr_idle, show LiteRTOS.osThreadStart .idleThread 0 _ = .ok Sys.init.kernel from rfl]
    at hreg
  obtain ⟨y, hy, hk⟩ := hreg.exists_of_ok
  refine ⟨y, ?_, hk.represents,
    hstarted.of_sameOn (sameOn_tcb hk.frame _) (sameOn_stack hk.frame _), hk.primask, hk.portC⟩
  rw [osInit, osThreadStart, hm, ok_bind]
  exact hy

theorem Init.refines (h : V.Init M) : V.Refines M Sys.init := by
  obtain ⟨x, hzero, hscs, hinit⟩ := h.osInit
  obtain ⟨y, hy, hrep, hstarted, -⟩ := exists_osInit hzero hscs
  obtain rfl : y = M.mcu := Except.ok.inj (hy.symm.trans hinit)
  have hcurr : load32 M.core.cpu.mem V.threads.osCurr = 0 :=
    ((points_none.eq_iff hrep.osCurr).mp rfl).symm
  have hcore : V.threads.Init M.core.cpu.mem M.core :=
    ⟨rfl, h.curr, h.preempted, h.valid, h.room, h.lspact⟩
  refine ⟨hrep, h.primask, Sys.inv_init, ?_, hcore.inv (fun t ht => ?_) hcurr, h.fpca,
    fun t _ => ⟨by simp [h.curr], h.preempted t⟩⟩
  · rw [h.started]
    rfl
  · rw [Machine.threads, h.started] at ht
    obtain rfl := List.mem_singleton.mp ht
    exact hstarted

/-! ### Runs -/

/-- The bits of a thread in the memory are those in the kernel state. -/
theorem Refines.inMask_iff (h : V.Refines M s) {x : Var ι} {v : BitVec 32}
    (hx : M.mcu.load (V.var x) = v) : s.kernel.InMask v (V.ptr t) ↔ M.HasBit V x t := by
  rw [Kernel.inMask_iff, Machine.HasBit, hx]
  constructor
  · rintro ⟨i, hi, ht⟩
    obtain ⟨prio, hmem, hprio⟩ := h.inv.started_of_entry i _ ht
    rw [h.started] at hmem
    obtain ⟨q, hq, heq⟩ := List.mem_map.mp hmem
    obtain ⟨hptr, rfl⟩ := Prod.mk.inj heq
    obtain rfl : q.1 = t := V.ptr_injective hptr
    exact ⟨q.2, hq, by rwa [hprio]⟩
  · rintro ⟨prio, hmem, hbit⟩
    obtain ⟨hne, ht⟩ := h.inv.entry_of_started (V.ptr t, prio)
      (h.started ▸ List.mem_map_of_mem (f := fun q => (V.ptr q.1, q.2)) hmem)
    have hpos : prio.toNat ≠ 0 := by
      intro hzero
      change s.kernel.entry prio.toNat = _ at ht
      rw [hzero] at ht
      exact hne (Option.some.inj (ht.symm.trans h.inv.idle))
    exact ⟨prio.toNat - 1, hbit, by rwa [show prio.toNat - 1 + 1 = prio.toNat by omega]⟩

theorem count_kernelEvents (es : List (Machine.Event ι)) :
    (es.flatMap V.kernelEvents).count .sysTick = es.countP Machine.Event.isSysTick := by
  induction es with
  | nil => rfl
  | cons e es ih =>
    rw [List.flatMap_cons, List.count_append, ih, List.countP_cons, Nat.add_comm]
    cases e <;> rfl

section Run

variable [DecidableEq ι] {es : List (Machine.Event ι)}

/-- A step of the machine is a step of the system, or none. -/
theorem Refines.step (h : V.Refines M s) (hs : V.Step M e M') :
    ∃ s', Run Sys.Step s (V.kernelEvents e) s' ∧ V.Refines M' s' := by
  obtain ⟨M₁, s', hM₁, hr, h'⟩ := h.exec hs.enabled
  obtain rfl := Except.ok.inj (hs.exec.symm.trans hM₁)
  exact ⟨s', hr, h'⟩

theorem Refines.run (h : V.Refines M s) (hr : Run V.Step M es M') :
    ∃ s', Run Sys.Step s (es.flatMap V.kernelEvents) s' ∧ V.Refines M' s' :=
  Run.simulate (fun _ _ _ _ h hs => h.step hs) hr h

/-- A step of the system that starts no foreign thread is a step of the machine. -/
theorem Refines.exists_step (h : V.Refines M s) {s' : Sys} {e : Event} (hs : s.Step e s')
    (hmask : s.kernel.primask = false) (he : ∀ t prio, e = .start t prio → ∃ u, V.ptr u = t) :
    ∃ f M', V.Step M f M' ∧ V.kernelEvents f = [e] ∧ V.Refines M' s' := by
  suffices hf : ∃ f, V.Enabled M f ∧ V.kernelEvents f = [e] by
    obtain ⟨f, hen, hf⟩ := hf
    obtain ⟨M', s₁, hM', hr, h'⟩ := h.exec hen
    rw [hf] at hr
    obtain rfl := Run.unique Sys.step_unique hr (.cons hs (.nil s'))
    exact ⟨f, M', ⟨hen, hM'⟩, hf, h'⟩
  have hprimask : M.core.cpu.primask = false := h.primask.trans hmask
  cases e with
  | start t prio =>
    obtain ⟨u, rfl⟩ := he t prio rfl
    obtain ⟨hne, hpos, hle, hnew⟩ := hs.enabled
    refine ⟨.start u prio, ⟨fun heq => hne (heq ▸ V.ptr_idle), hpos, hle, fun q hq => ?_⟩, rfl⟩
    have hq' : (V.ptr q.1, q.2) ∈ s.started := h.started ▸ List.mem_map_of_mem hq
    exact ⟨fun heq => (hnew _ hq').1 (heq ▸ rfl), (hnew _ hq').2⟩
  | run => exact ⟨.run, trivial, rfl⟩
  | sysTick => exact ⟨.sysTick M.core.cpu.mem, ⟨hprimask, fun _ _ => rfl⟩, rfl⟩
  | pendSV =>
    obtain ⟨t, ht, -⟩ := h.inv.next hs.enabled
    obtain ⟨o, ho, hload⟩ := h.represents.osNext
    rw [ht] at ho
    obtain ⟨u, rfl, -⟩ := Option.map_eq_some_iff.mp ho.symm
    exact ⟨.pendSV u, ⟨h.pendSV_eq.symm.trans hs.enabled, hprimask, hload⟩, rfl⟩
  | delay ticks =>
    obtain ⟨hoff, hnone, hidle⟩ := hs.enabled
    rw [h.osCurr] at hnone hidle
    refine ⟨.delay ticks, ⟨h.pendSV_eq.symm.trans hoff, by simpa using hnone, fun heq => ?_⟩, rfl⟩
    exact hidle (by rw [heq, Option.map_some, V.ptr_idle])

/-- A run of the system that starts no foreign thread is a run of the machine. -/
theorem Refines.exists_run (h : V.Refines M s) {s' : Sys} {es : List Event}
    (hr : Run Sys.Step s es s') (hmask : s.kernel.primask = false)
    (hes : ∀ t prio, .start t prio ∈ es → ∃ u, V.ptr u = t) :
    ∃ fs M', Run V.Step M fs M' ∧ fs.flatMap V.kernelEvents = es ∧ V.Refines M' s' := by
  induction hr generalizing M with
  | nil s => exact ⟨[], M, .nil M, rfl, h⟩
  | @cons s s₁ s' e es hs hr ih =>
    obtain ⟨f, M₁, hf, hfe, h₁⟩ :=
      h.exists_step hs hmask fun t prio he => hes t prio (he ▸ List.mem_cons_self)
    obtain ⟨fs, M', hfs, hfse, h'⟩ :=
      ih h₁ (hs.primask hmask) fun t prio he => hes t prio (List.mem_cons_of_mem _ he)
    exact ⟨f :: fs, M', .cons hf hfs, by rw [List.flatMap_cons, hfe, hfse]; rfl, h'⟩

/-- **The machine does what the system does.** Let the machine run from the state after `OS_Init`,
whatever the threads do to their own registers, stacks and data and whenever exceptions are taken
between two events. Then its memory represents a state that the system reaches by the same steps,
`OS_Curr` is the thread whose registers the processor has, and interrupts are enabled. No event that
may take place faults. A pending PendSV can be taken; it dispatches the idle thread or a thread that
has been started, with the registers and the stack that this thread had when it was last preempted,
or with its first ones. -/
theorem machine_refines {M₀ : Machine ι} (h₀ : V.Init M₀) (hr : Run V.Step M₀ es M) :
    (∃ s, Run Sys.Step .init (es.flatMap V.kernelEvents) s ∧ V.Represents M.mcu s.kernel ∧
      s.kernel.osCurr = M.core.curr.map V.ptr ∧
      s.started = M.started.map fun q => (V.ptr q.1, q.2)) ∧
    M.core.cpu.primask = false ∧
    (∀ e, V.Enabled M e → ∃ M', V.Step M e M') ∧
    (pendSVSet M.scs = true → ∃ t, V.Enabled M (.pendSV t)) ∧
    ∀ t M', V.Step M (.pendSV t) M' →
      t ∈ M.threads V ∧ V.threads.Resumes M.core t M'.core.cpu := by
  obtain ⟨s, hs, h⟩ := h₀.refines.run hr
  have hmask := Sys.primask_of_run hs
  refine ⟨⟨s, hs, h.represents, h.osCurr, h.started⟩, h.primask.trans hmask, fun e hen => ?_,
    fun hpend => ?_, fun t M' hs' => ?_⟩
  · obtain ⟨M', -, hM', -⟩ := h.exec hen
    exact ⟨M', hen, hM'⟩
  · obtain ⟨s', hs'⟩ := h.inv.exists_step (e := .pendSV) (h.pendSV_eq.trans hpend)
    obtain ⟨f, M', hf, hfe, -⟩ := h.exists_step hs' hmask fun _ _ he => by cases he
    cases f with
    | pendSV t => exact ⟨t, hf.enabled⟩
    | _ => cases hfe
  · obtain ⟨M₁, -, hM₁, -, -, hmem, hresumes⟩ := h.pendSV hs'.enabled
    obtain rfl := Except.ok.inj (hs'.exec.symm.trans hM₁)
    exact ⟨hmem, hresumes⟩

/-- A call of `OS_msDelay` on the machine is one of the system. -/
theorem Refines.everyStep_not_calls (h : V.Refines M s) (hr : Run V.Step M es M')
    (hcalls : Run.EveryStep V.Step (fun M e => ¬M.Calls t e) M es) :
    Run.EveryStep Sys.Step (fun s e => ¬s.Calls (V.ptr t) e) s (es.flatMap V.kernelEvents) := by
  refine Run.EveryStep.simulate Sys.step_unique (fun M f M' s h hs hf => ?_) hr hcalls h
  obtain ⟨s', hs', h'⟩ := h.step hs
  refine ⟨s', hs', h', ?_⟩
  have hcall (e : Event) (he : ∀ ticks, e = .delay ticks → f = .delay ticks) :
      ¬s.Calls (V.ptr t) e := by
    rintro ⟨hcurr, ticks, rfl⟩
    rw [h.osCurr, ← Option.map_some] at hcurr
    exact hf ⟨Option.map_injective V.ptr_injective hcurr, ticks, he ticks rfl⟩
  cases f with
  | work => exact Run.everyStep_nil
  | _ => exact .cons_of_forall (hcall _ (by simp)) fun _ _ => Run.everyStep_nil

/-- **A delay of `n` ticks blocks for `n` ticks on the machine.** Let the running thread `t` call
`OS_msDelay n` in a state that the machine reaches, with `n` not zero, and let any events follow. As
long as they contain fewer than `n` SysTick exceptions, in the memory the bit of `t` is in
`OS_DelayedSet` and not in `OS_ReadySet`, its `TimeOut` is the number of ticks to come, and
PendSV does not give it the processor. From the `n`-th tick on its bit is in `OS_ReadySet` and not
in `OS_DelayedSet`, until it calls `OS_msDelay` again. -/
theorem machine_delay_blocks {M₀ M₁ M₂ : Machine ι} {es₀ : List (Machine.Event ι)}
    {n : BitVec 32} (h₀ : V.Init M₀) (hr₀ : Run V.Step M₀ es₀ M) (hn : n ≠ 0)
    (hcurr : M.core.curr = some t) (hcall : V.Step M (.delay n) M₁) (hr : Run V.Step M₁ es M₂) :
    (es.countP Machine.Event.isSysTick < n.toNat →
      M₂.HasBit V .osDelayedSet t ∧ ¬M₂.HasBit V .osReadySet t ∧
      (M₂.mcu.load (V.tcb t + 8)).toNat = n.toNat - es.countP Machine.Event.isSysTick ∧
      ∀ M₃, ¬V.Step M₂ (.pendSV t) M₃) ∧
    (n.toNat ≤ es.countP Machine.Event.isSysTick →
      Run.EveryStep V.Step (fun M e => ¬M.Calls t e) M₁ es →
      M₂.HasBit V .osReadySet t ∧ ¬M₂.HasBit V .osDelayedSet t) := by
  obtain ⟨s, hs₀, h⟩ := h₀.refines.run hr₀
  obtain ⟨s₁, hs₁, h₁⟩ := h.step hcall
  obtain ⟨s₂, hs₂, h₂⟩ := h₁.run hr
  have hcurr' : s.kernel.osCurr = some (V.ptr t) := by rw [h.osCurr, hcurr, Option.map_some]
  obtain ⟨_, hcall', hnil⟩ := Run.cons_iff.mp hs₁
  obtain rfl := Run.nil_iff.mp hnil
  obtain ⟨i, hw⟩ := h.inv.waits_of_delay hcall' hcurr'
  have hcount := V.count_kernelEvents es
  have hdelayed := h₂.inMask_iff (t := t) h₂.represents.osDelayedSet
  have hready := h₂.inMask_iff (t := t) h₂.represents.osReadySet
  constructor
  · intro hc
    have hw₂ := h₁.inv.waits_run hs₂ hw (hcount ▸ hc)
    have hmasks := hw₂.isDelayed h₂.inv.toTable
    refine ⟨hdelayed.mp hmasks.1, mt hready.mpr hmasks.2, ?_, fun M₃ hs₃ => ?_⟩
    · rw [h₂.represents.timeOut, hw₂.timeOut, hcount]
    · exact hw₂.not_runnable h₂.inv.toTable (h₂.runnable_of_enabled hs₃.enabled).2
  · intro hc hcalls
    have hpos : 0 < n.toNat := Nat.pos_of_ne_zero fun hzero => hn (BitVec.eq_of_toNat_eq hzero)
    have hw₂ := h₁.inv.woken_of_waits_run hs₂ hw hpos (hcount ▸ hc)
      (h₁.everyStep_not_calls hr hcalls)
    have hmasks := hw₂.isReady h₂.inv.toTable
    exact ⟨hready.mp hmasks.1, mt hdelayed.mpr hmasks.2⟩

end Run

/-! ### Three threads -/

/-- `main` with an empty stack, in zeroed memory. -/
def exampleCpu : Cpu where
  toContext := { Layout.exampleContext with sp := 0x20000800 }
  primask := false
  fpca := false
  lspen := true
  lspact := false
  s _ := 0
  fpscr := 0
  mem _ := 0

theorem exists_exampleInit : ∃ M, exampleImage.Init M := by
  obtain ⟨y, hy, -, -, hprimask, -⟩ := exists_osInit (V := exampleImage)
    (x := ⟨fun _ => 0, false, fun _ => 0, ⟨false, 0⟩⟩) (fun _ => .refl) rfl
  refine ⟨⟨⟨{ exampleCpu with mem := y.mem, primask := y.primask }, none, fun _ => none⟩, y.scs,
    y.portC, []⟩, ⟨_, fun _ => .refl, rfl, hy⟩, rfl, fun _ => rfl, ?_, ?_, hprimask rfl, rfl, rfl,
    rfl⟩
  · exact show exampleCpu.Valid from ⟨rfl, rfl, rfl⟩
  · exact show exampleImage.threads.HasRoom none 0x20000800 0x40 by decide

/-- The thread 1 sleeps for two ticks. -/
def exampleEvents : List Event :=
  [.start (.thread 1) 3, .start (.thread 2) 2, .run, .pendSV, .delay 2, .pendSV, .sysTick]

theorem exampleEvents_run : ∃ s, Run Sys.Step .init exampleEvents s ∧ s.kernel.pendSV = false := by
  have hrun : (Sys.init.run? exampleEvents).any (fun s => !s.kernel.pendSV) = true := by
    decide +kernel
  obtain ⟨s, hr, hp⟩ := Sys.exists_run_of_any hrun
  exact ⟨s, hr, by simpa using hp⟩

theorem exampleEvents_start (t : TcbPtr) (prio : BitVec 8) (h : .start t prio ∈ exampleEvents) :
    ∃ u, exampleImage.ptr u = t := by
  simp only [exampleEvents, List.mem_cons, Event.start.injEq, reduceCtorEq, List.not_mem_nil,
    or_false] at h
  rcases h with ⟨rfl, -⟩ | ⟨rfl, -⟩
  · exact ⟨1, rfl⟩
  · exact ⟨2, rfl⟩

/-- After the steps of the example no event that may take place faults. -/
theorem machine_refines_two : ∃ M₀ es M, exampleImage.Init M₀ ∧ Run exampleImage.Step M₀ es M ∧
    es.flatMap exampleImage.kernelEvents = exampleEvents ∧ M.core.cpu.primask = false ∧
    ∀ e, exampleImage.Enabled M e → ∃ M', exampleImage.Step M e M' := by
  obtain ⟨M₀, h₀⟩ := exists_exampleInit
  obtain ⟨s, hr, -⟩ := exampleEvents_run
  obtain ⟨fs, M, hM, hfs, -⟩ := h₀.refines.exists_run hr rfl exampleEvents_start
  obtain ⟨-, hmask, hexec, -⟩ := machine_refines h₀ hM
  exact ⟨M₀, fs, M, h₀, hM, hfs, hmask, hexec⟩

/-- The thread 1 sleeps until the second of two ticks. -/
theorem machine_delay_blocks_two : ∃ M₀ es₀ M M₁ es M₂, exampleImage.Init M₀ ∧
    Run exampleImage.Step M₀ es₀ M ∧
    es₀.flatMap exampleImage.kernelEvents = [.start (.thread 1) 3, .run, .pendSV] ∧
    M.core.curr = some 1 ∧ exampleImage.Step M (.delay 2) M₁ ∧ Run exampleImage.Step M₁ es M₂ ∧
    es.flatMap exampleImage.kernelEvents = [.sysTick, .pendSV, .sysTick] ∧
    M₂.HasBit exampleImage .osReadySet 1 := by
  obtain ⟨M₀, h₀⟩ := exists_exampleInit
  have hrun : (Sys.init.run? [.start (.thread 1) 3, .run, .pendSV]).any (fun s =>
      decide (s.kernel.osCurr = some (.thread 1)) && (s.step? (.delay 2)).any fun s₁ =>
        (s₁.run? [.sysTick, .pendSV, .sysTick]).any fun _ => true) = true := by decide +kernel
  obtain ⟨s, hs, h⟩ := Sys.exists_run_of_any hrun
  obtain ⟨hcurr, h⟩ := Bool.and_eq_true_iff.mp h
  obtain ⟨s₁, hcall, h⟩ := Sys.exists_step_of_any h
  obtain ⟨s₂, hr, -⟩ := Sys.exists_run_of_any h
  have hmask := Sys.primask_of_run hs
  have hstart (t : TcbPtr) (prio : BitVec 8)
      (ht : .start t prio ∈ [Event.start (.thread 1) 3, .run, .pendSV]) :
      ∃ u, exampleImage.ptr u = t := by
    simp only [List.mem_cons, Event.start.injEq, reduceCtorEq, List.not_mem_nil, or_false] at ht
    exact ⟨1, ht.1.symm⟩
  obtain ⟨fs, M, hM, hfs, h⟩ := h₀.refines.exists_run hs rfl hstart
  obtain ⟨f, M₁, hf, hfe, h₁⟩ := h.exists_step hcall hmask (by simp)
  obtain ⟨gs, M₂, hgs, hgse, h₂⟩ := h₁.exists_run hr (hcall.primask hmask) (by simp)
  obtain rfl : f = .delay 2 := by
    cases f with
    | delay ticks => exact congrArg _ (Event.delay.inj (List.singleton_inj.mp hfe))
    | _ => cases hfe
  have hcurr₁ : M.core.curr = some 1 := by
    have heq := h.osCurr.symm.trans (of_decide_eq_true hcurr)
    exact Option.map_injective exampleImage.ptr_injective heq
  have hcount : gs.countP Machine.Event.isSysTick = 2 := by
    rw [← exampleImage.count_kernelEvents, hgse]
    rfl
  refine ⟨M₀, fs, M, M₁, gs, M₂, h₀, hM, hfs, hcurr₁, hf, hgs, hgse,
    ((machine_delay_blocks h₀ hM (by decide) hcurr₁ hf hgs).2 hcount.ge ?_).1⟩
  refine Run.EveryStep.of_forall_mem fun g hg M => ?_
  rintro ⟨-, n, rfl⟩
  have hmem : Event.delay n ∈ gs.flatMap exampleImage.kernelEvents :=
    List.mem_flatMap.mpr ⟨_, hg, List.mem_singleton_self _⟩
  simp [hgse] at hmem

end Image

end LiteRTOS
