import LiteRTOS.App.SysStartup
import LiteRTOS.App.Threads

/-!
# The application on the machine

A run of the application is one of the machine. A call of the kernel and an exception are the
events of the machine, and every other instruction is work of the running thread, which leaves the
processor and port C in some state. So the memory represents the kernel of the application in every
state it comes to, the processor has the registers of the active context, and `GPIOC_ODR` is the
same. It takes an image that has the control blocks of the two threads.

## Main definitions

* `Image.Runs`: the machine is in a state of the application.

## Main results

* `Image.Runs.step`: an event of the application on the machine.
* `Image.app_runs`: all runs of the application, from power-up on.
-/

namespace LiteRTOS

open Kernel App

namespace Image

variable {ι : Type*} {V : Image ι} {M M' : Machine ι} {s s' : Sys} {e : Event}

/-! ### Port C on the machine -/

theorem map_eq_ok {α β : Type*} {f : α → β} {x : Except Fault α} {b : β} :
    x.map f = .ok b ↔ ∃ a, x = .ok a ∧ f a = b := by
  cases x with
  | error => simp [Except.map]
  | ok a => simp [Except.map]

/-- A call does the same to port C in memory and in the kernel state. -/
theorem Call.portC {x x' : Mcu} {k k' : Kernel} (h : V.Represents x k) (hp : x.portC = k.portC)
    {c : Call ι} (hk : c.onKernel V k = .ok k') (hx : c.onMcu V x = .ok x') :
    x'.portC = k'.portC := by
  have hrel : Except.Rel (V.KeepsWith Set.univ k x) (c.onKernel V k) (c.onMcu V x) :=
    c.keepsWith h fun _ _ _ => trivial
  rw [hk, hx] at hrel
  exact hrel.of_ok_ok.portC hp

variable [DecidableEq ι]

/-- A step of the kernel does the same to port C on the machine. -/
theorem Refines.portC_step (h : V.Refines M s) (hp : M.portC = s.kernel.portC)
    {f : Machine.Event ι} (hf : V.Step M f M') (hs : s.Step e s') (he : V.kernelEvents f = [e]) :
    M'.portC = s'.kernel.portC := by
  have hexec := hf.exec
  have hexec' := hs.exec
  have hrep := h.represents
  cases f with
  | work => cases he
  | start t prio =>
    cases he
    obtain ⟨y, hy, rfl⟩ := map_eq_ok.mp hexec
    exact Call.portC (c := .threadStart t prio) hrep hp hexec' hy
  | run =>
    cases he
    obtain ⟨y, hy, rfl⟩ := map_eq_ok.mp hexec
    exact Call.portC (c := .run) hrep hp hexec' hy
  | sysTick mem =>
    cases he
    obtain ⟨y, hy, rfl⟩ := map_eq_ok.mp hexec
    exact Call.portC (c := .sysTick) (h.scratch hf.enabled.2).represents hp hexec' hy
  | delay ticks =>
    cases he
    obtain ⟨y, hy, rfl⟩ := map_eq_ok.mp hexec
    exact Call.portC (c := .msDelay ticks) hrep hp hexec' hy
  | pendSV t =>
    cases he
    obtain ⟨next, -, hnext⟩ := bind_eq_ok.mp hexec'
    rw [← Except.ok.inj hexec, ← Except.ok.inj hnext]
    exact hp

/-! ### The application -/

variable {a a' : App} {ev : AppEvent} {es : List AppEvent}

/-- The machine `M` is in the state `a` of the application. -/
structure Runs (V : Image ι) (M : Machine ι) (a : App) : Prop extends V.Refines M a.sys where
  portC : M.portC = a.sys.kernel.portC
  enabled : a.sys.kernel.primask = false

/-- The control blocks of the application are in the image. -/
structure HasThreads (V : Image ι) : Prop where
  blinky : ∃ u, V.ptr u = blinkyThread
  togglePC3 : ∃ u, V.ptr u = togglePC3Thread

omit [DecidableEq ι] in
theorem HasThreads.of_start (hV : V.HasThreads) (ha : a.Inv) {t : TcbPtr} {prio : BitVec 8}
    {l : List AppInstr} (hl : a.todo a.active = .call (.start t prio) :: l) :
    ∃ u, V.ptr u = t := by
  rcases hc : a.active with _ | c
  · rw [hc] at hl
    rcases (hl ▸ ha.main).eq_of_start with rfl | rfl
    · exact hV.blinky
    · exact hV.togglePC3
  · obtain ⟨-, n, hn⟩ := eq_delay_of_mem (ha.mem_loopCode (hc ▸ hl))
    cases hn

theorem exists_instr_sys {c : Option TcbPtr} {i : AppInstr} (hcall : ∀ ev, i ≠ .call ev)
    (h : i.exec c a = .ok a') : ∃ portC, a'.sys = { a.sys with kernel.portC := portC } := by
  cases i with
  | call ev => exact absurd rfl (hcall ev)
  | _ => exact Except.ok.inj h ▸ ⟨_, rfl⟩

/-- A change of port C is work of the running thread. -/
theorem Runs.work (h : V.Runs M a) (ha' : a'.sys.Inv) {portC : PortC}
    (hsys : a'.sys = { a.sys with kernel.portC := portC }) :
    ∃ M', V.Step M (.work M.core.cpu portC) M' ∧ V.Runs M' a' := by
  have hworks : V.threads.Works M.core.curr M.core.cpu M.core.cpu :=
    { osCurr := .refl
      tcb := fun _ => .refl
      stack := fun _ _ => .refl
      valid := h.switches.valid
      room := h.switches.room
      lspact := rfl
      fpca := fun hf => ⟨hf, rfl⟩ }
  refine ⟨_, ⟨⟨hworks, fun _ _ => .refl, rfl, h.fpca⟩, rfl⟩, ?_⟩
  have hkeeps := Keeps.drive h.represents fun _ => portC
  have hrefines := h.toRefines.of_works hworks h.fpca (hsys ▸ ha')
    hkeeps.represents h.primask
  exact ⟨hsys ▸ hrefines, by rw [hsys], by rw [hsys]; exact h.enabled⟩

/-- A step of the kernel under the application. -/
theorem Runs.kernelStep (h : V.Runs M a) (b : App) (hs : a.sys.Step e b.sys)
    (hstart : ∀ t prio, e = .start t prio → ∃ u, V.ptr u = t) :
    ∃ f M', V.Step M f M' ∧ V.Runs M' b ∧ V.kernelEvents f = [e] := by
  obtain ⟨f, M', hf, he, h'⟩ := h.toRefines.exists_step hs h.enabled hstart
  exact ⟨f, M', hf, ⟨h', h.toRefines.portC_step h.portC hf hs he, hs.primask h.enabled⟩, he⟩

/-- **An event of the application on the machine.** -/
theorem Runs.step (h : V.Runs M a) (hV : V.HasThreads) (ha : a.Inv) (hs : a.Step ev a') :
    ∃ fs M', Run V.Step M fs M' ∧ V.Runs M' a' ∧
      fs.flatMap V.kernelEvents = a.kernelEvent ev := by
  cases hs.moves with
  | loop hl =>
    exact ⟨[], M, .nil M, ⟨h.toRefines, h.portC, h.enabled⟩, (kernelEvent_of_nil hl).symm⟩
  | instr hl hcall ha' =>
    obtain ⟨portC, hsys⟩ := exists_instr_sys hcall ha'
    obtain ⟨M', hf, h'⟩ := h.work (ha.step hs).sys hsys
    exact ⟨[.work M.core.cpu portC], M', .cons hf (.nil M'), h', (kernelEvent_of_ne hl hcall).symm⟩
  | @call ev l s hl hexec =>
    have hstep := step_of_sysExec (ha.enabled_of_call hs.enabled hl) hexec
    obtain ⟨f, M', hf, h', he⟩ := h.kernelStep { a.goto a.active l with sys := s } hstep
      fun t prio hev => hV.of_start ha (hev ▸ hl)
    exact ⟨[f], M', .cons hf (.nil M'), h', by simp [he, kernelEvent_of_call hl]⟩
  | @sysTick s hs' | @pendSV s hs' =>
    obtain ⟨f, M', hf, h', he⟩ := h.kernelStep { a with sys := s } hs'
      fun _ _ he => by cases he
    exact ⟨[f], M', .cons hf (.nil M'), h', by simp [he, kernelEvent]⟩

theorem Runs.run {M₀ : Machine ι} (h₀ : V.Runs M₀ .init) (hV : V.HasThreads)
    (hr : Run App.Step .init es a) :
    ∃ fs M, Run V.Step M₀ fs M ∧ V.Runs M a ∧ fs.flatMap V.kernelEvents = App.init.trace es := by
  have heval (a : App) (e : AppEvent) (a' : App) : a.Step e a' → a.step? e = some a' :=
    Run.Guarded.step?_eq_some.mpr
  refine (Run.invariant_total (P := fun a (m : FreeAddMonoid Event) => a.Inv ∧
    ∃ fs M, Run V.Step M₀ fs M ∧ V.Runs M a ∧ fs.flatMap V.kernelEvents = m.toList)
    heval ?_ hr ?_).2
  · rintro a e a' m ⟨ha, fs, M, hfs, h, htrace⟩ hs
    obtain ⟨gs, M', hgs, h', hevent⟩ := h.step hV ha hs
    refine ⟨ha.step hs, fs ++ gs, M', Run.append_iff.mpr ⟨M, hfs, hgs⟩, h', ?_⟩
    rw [List.flatMap_append, htrace, hevent]
    rfl
  · exact ⟨inv_init, [], M₀, .nil M₀, h₀, rfl⟩

/-- **The application on the machine.** Let an image have the control blocks of the application,
and the variables of the kernel in its `.bss` section. Whatever the memory contains at power-up, and
with port C at its reset value, every run of the application is one of the machine: there are events
of the machine with the same steps of the kernel, after which the memory represents the kernel of
the application, `GPIOC_ODR` is as in the application, and the processor has the registers of the
active context. -/
theorem app_runs {S : Sections} {c : Cpu} (hc : V.AtReset c) (hbss : V.InBss S)
    (hV : V.HasThreads) :
    ∃ M₀, V.boot S c ⟨false, 0⟩ = .ok M₀ ∧ ∀ es a, Run App.Step .init es a →
      ∃ fs M, Run V.Step M₀ fs M ∧ fs.flatMap V.kernelEvents = App.init.trace es ∧
        V.Represents M.mcu a.sys.kernel ∧ M.portC = a.sys.kernel.portC ∧
        a.active = M.core.curr.map V.ptr := by
  obtain ⟨M₀, hM₀, hinit, hportC⟩ := hc.exists_boot hbss ⟨false, 0⟩
  have h₀ : V.Runs M₀ .init := ⟨hinit.refines, hportC rfl, rfl⟩
  refine ⟨M₀, hM₀, fun es a hr => ?_⟩
  obtain ⟨fs, M, hfs, h, htrace⟩ := h₀.run hV hr
  exact ⟨fs, M, hfs, htrace, h.represents, h.portC, h.toRefines.osCurr⟩

/-- The idle thread and the two threads of the application. -/
def appImage : Image (Fin 3) :=
  { exampleImage with
    ptr := fun t => if t = 0 then .idleThread else .thread (t - 1 : ℕ)
    ptr_injective := by decide
    ptr_idle := rfl }

/-- `Blinky_Main` begins with the registers of its first context, whatever RAM contained. -/
theorem app_runs_blinky : ∃ M₀ fs M, appImage.boot exampleSections
      { exampleCpu with mem := fun _ => 0xFF } ⟨false, 0⟩ = .ok M₀ ∧
    Run appImage.Step M₀ fs M ∧ M.core.curr = some 1 := by
  have hthreads : appImage.HasThreads := ⟨⟨1, rfl⟩, ⟨2, rfl⟩⟩
  have hreset : appImage.AtReset { exampleCpu with mem := fun _ => 0xFF } :=
    { exampleCpu_atReset _ with }
  have hbss : appImage.InBss exampleSections := inBss_example
  have hrun : (Run.eval App.step? .init [.instr, .instr, .instr, .pendSV]).any
      (fun a => decide (a.active = some blinkyThread)) = true := by decide +kernel
  obtain ⟨a, hr, hactive⟩ := Run.Guarded.exists_run_of_any hrun
  obtain ⟨M₀, hM₀, h⟩ := app_runs hreset hbss hthreads
  obtain ⟨fs, M, hfs, -, -, -, hcurr⟩ := h _ _ hr
  refine ⟨M₀, fs, M, hM₀, hfs, ?_⟩
  have hptr : M.core.curr.map appImage.ptr = (some 1).map appImage.ptr :=
    hcurr.symm.trans (of_decide_eq_true hactive)
  exact Option.map_injective appImage.ptr_injective hptr

end Image

end LiteRTOS
