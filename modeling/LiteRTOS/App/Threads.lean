import LiteRTOS.Library.Total
import LiteRTOS.OS.StepEffects
import Mathlib.Algebra.FreeMonoid.Basic

/-!
# The threads of the application

`App.c` starts two threads. `Blinky_Main` drives the user LED on port A and `TogglePC3_Main` drives
PC3, each of them in a loop with delays. The idle thread drives PC10. The contexts of the system are
`main`, from its first `OSThread_Start` on, and the threads; each of them has its place in its code
and a register with the value it has loaded from a port. SysTick may be taken between any two steps,
and PendSV as soon as it is pending. A context that is switched out goes on where it was. A call of
the kernel is one step, also that of `OSThread_Start`, in which nothing masks interrupts.

The functions of the kernel require of their callers that control blocks and priorities be fresh and
that only a thread sleep. The application keeps to that in every run (`App.calls_allowed`).

## Main definitions

* `AppInstr`: the steps of the code of a context.
* `blinkyMain`, `togglePC3Main`, `idleThreadMain`, `mainCode`: the code.
* `App`, `App.Enabled`, `App.exec`, `App.Step`: the system of all contexts.
* `App.Inv`: the contexts are in their code, and `main` has started what it has started.

## Main results

* `App.Inv.step`: every step keeps the invariant.
* `App.calls_allowed`: no run gets stuck, and every call of the kernel is one that it allows.
-/

namespace LiteRTOS

open Kernel

/-! ### The code -/

/-- `&Blinky_Thread`. -/
def blinkyThread : TcbPtr := .thread 0

/-- `&TogglePC3_Thread`. -/
def togglePC3Thread : TcbPtr := .thread 1

/-- A step of the code of a context, between which exceptions may be taken. -/
inductive AppInstr
  /-- The load of `GPIOA_ODR`. -/
  | loadA
  /-- The store of `GPIOA_ODR` with the bit of the LED at a level. -/
  | storeA (level : Bool)
  /-- `AcquirePortResource`. -/
  | acquire
  /-- The load of `GPIOC_ODR`. -/
  | loadC
  /-- The store of `GPIOC_ODR` in a call such as `PC3_On`. -/
  | storeC (call : PinCall)
  /-- `ReleasePortResource`. -/
  | release
  /-- A call of the kernel, which is one step of `Sys`. For `OSThread_Start` this leaves exceptions
  inside the call out, although it does not mask them. -/
  | call (e : Event)
  /-- `Wait_For_Interrupt`. -/
  | waitForInterrupt
  deriving DecidableEq

/-- `Led_On`. -/
def ledOn : List AppInstr := [.loadA, .storeA true]

/-- `Led_Off`. -/
def ledOff : List AppInstr := [.loadA, .storeA false]

/-- One of the functions `PC2_On`, …, `PC10_Off`. -/
def PinCall.code (call : PinCall) : List AppInstr := [.acquire, .loadC, .storeC call, .release]

/-- `OS_OnIdle`. -/
def osOnIdle : List AppInstr :=
  PinCall.code ⟨.pc10, true⟩ ++ PinCall.code ⟨.pc10, false⟩ ++ [.waitForInterrupt]

/-- The loop of `Blinky_Main`. -/
def blinkyMain : List AppInstr :=
  ledOn ++ [.call (.delay 10)] ++ ledOff ++ [.call (.delay 20)]

/-- The loop of `TogglePC3_Main`. -/
def togglePC3Main : List AppInstr :=
  PinCall.code ⟨.pc3, true⟩ ++ [.call (.delay 20)] ++
    PinCall.code ⟨.pc3, false⟩ ++ [.call (.delay 40)]

/-- The loop of `IdleThread_Main`. -/
def idleThreadMain : List AppInstr := osOnIdle

/-- `main` after `OS_Init`. -/
def mainCode : List AppInstr :=
  [.call (.start blinkyThread 3), .call (.start togglePC3Thread 2), .call .run]

/-- The code that a context begins again at its end. `main` is the context `none`; when it returns,
`__my_startup` loops and does nothing. -/
def loopCode : Option TcbPtr → List AppInstr
  | none => []
  | some .idleThread => idleThreadMain
  | some (.thread 0) => blinkyMain
  | some (.thread 1) => togglePC3Main
  | some (.thread _) => []

/-! ### The system of all contexts -/

/-- The kernel, `GPIOA_ODR`, and for every context the code it has still to run and the value it has
loaded from a port. Port C is part of the kernel's state. -/
structure App where
  sys : Sys
  portA : BitVec 32
  todo : Option TcbPtr → List AppInstr
  reg : Option TcbPtr → BitVec 32

/-- The next instruction of the active context, or an exception. -/
inductive AppEvent
  | instr
  | sysTick
  | pendSV
  deriving DecidableEq

/-- A function of the kernel on the system. -/
def Sys.exec (s : Sys) (e : Event) : Except Fault Sys := do
  let kernel ← e.exec s.kernel
  return ⟨kernel, s.started ++ e.starts⟩

namespace App

/-- The context that has the processor. -/
def active (a : App) : Option TcbPtr := a.sys.kernel.osCurr

/-- The context `c` goes on with the code `l`. -/
def goto (a : App) (c : Option TcbPtr) (l : List AppInstr) : App :=
  { a with todo := Function.update a.todo c l }

/-- The context `c` has loaded `v`. -/
def load (a : App) (c : Option TcbPtr) (v : BitVec 32) : App :=
  { a with reg := Function.update a.reg c v }

/-- An access to port C. -/
def modifyC (a : App) (f : PortC → PortC) : App :=
  { a with sys.kernel.portC := f a.sys.kernel.portC }

@[simp] theorem goto_todo_self (a : App) (c : Option TcbPtr) (l : List AppInstr) :
    (a.goto c l).todo c = l :=
  Function.update_self ..

theorem goto_todo_of_ne {a : App} {c d : Option TcbPtr} {l : List AppInstr} (h : d ≠ c) :
    (a.goto c l).todo d = a.todo d :=
  Function.update_of_ne h ..

@[simp] theorem load_reg_self (a : App) (c : Option TcbPtr) (v : BitVec 32) :
    (a.load c v).reg c = v :=
  Function.update_self ..

end App

/-- What an instruction of the context `c` does. -/
def AppInstr.exec (c : Option TcbPtr) (a : App) : AppInstr → Except Fault App
  | .loadA => return a.load c a.portA
  | .storeA level =>
    return { a with portA := if level then a.reg c ||| 1#32 <<< 5 else a.reg c &&& ~~~(1#32 <<< 5) }
  | .acquire => return a.modifyC .acquirePortResource
  | .loadC => return a.load c a.sys.kernel.portC.odr
  | .storeC pinCall => return a.modifyC fun p => { p with odr := pinCall.update (a.reg c) }
  | .release => return a.modifyC .releasePortResource
  | .call e => return { a with sys := ← a.sys.exec e }
  | .waitForInterrupt => return a

namespace App

/-- A pending PendSV exception is taken before any further instruction. -/
def Enabled (a : App) : AppEvent → Prop
  | .instr => a.sys.kernel.pendSV = false
  | .sysTick => True
  | .pendSV => a.sys.kernel.pendSV = true

instance (a : App) (e : AppEvent) : Decidable (a.Enabled e) := by
  cases e <;> unfold Enabled <;> infer_instance

/-- The effect of an event. -/
def exec (a : App) : AppEvent → Except Fault App
  | .instr =>
    match a.todo a.active with
    | [] => return a.goto a.active (loopCode a.active)
    | i :: l => i.exec a.active (a.goto a.active l)
  | .sysTick => return { a with sys := ← a.sys.exec .sysTick }
  | .pendSV => return { a with sys := ← a.sys.exec .pendSV }

/-- One event of the system. -/
abbrev Step : App → AppEvent → App → Prop := Run.Guarded Enabled exec

/-- The event `e`, carried out if it may take place. -/
abbrev step? : App → AppEvent → Option App := Run.Guarded.step? Enabled exec

/-- The state after `OS_Init`. -/
def init : App where
  sys := .init
  portA := 0
  todo c := if c = none then mainCode else loopCode c
  reg _ := 0

variable {a a' : App} {e : AppEvent} {es : List AppEvent} {s : Sys} {ev : Event}
  {c : Option TcbPtr} {i : AppInstr} {l : List AppInstr}

/-! ### The kinds of steps -/

theorem step_of_sysExec (hen : s.Enabled ev) {s' : Sys} (h : s.exec ev = .ok s') :
    s.Step ev s' := by
  obtain ⟨k, hk, hs⟩ := bind_eq_ok.mp h
  obtain rfl := Except.ok.inj hs
  exact ⟨hen, hk, rfl⟩

theorem sysExec_of_step {s' : Sys} (h : s.Step ev s') : s.exec ev = .ok s' := by
  rw [Sys.exec, h.exec, ok_bind, ← h.started]
  rfl

/-- What an event does: the active context begins its code again, carries out an instruction other
than a call, or calls the kernel, or an exception is taken. -/
inductive Moves (a : App) : AppEvent → App → Prop
  | loop (h : a.todo a.active = []) : Moves a .instr (a.goto a.active (loopCode a.active))
  | instr {i : AppInstr} {l : List AppInstr} {a' : App} (h : a.todo a.active = i :: l)
      (hcall : ∀ ev, i ≠ .call ev) (ha' : i.exec a.active (a.goto a.active l) = .ok a') :
      Moves a .instr a'
  | call {ev : Event} {l : List AppInstr} {s : Sys} (h : a.todo a.active = .call ev :: l)
      (hs : a.sys.exec ev = .ok s) : Moves a .instr { a.goto a.active l with sys := s }
  | sysTick {s : Sys} (hs : a.sys.Step .sysTick s) : Moves a .sysTick { a with sys := s }
  | pendSV {s : Sys} (hs : a.sys.Step .pendSV s) : Moves a .pendSV { a with sys := s }

theorem Step.moves (h : a.Step e a') : a.Moves e a' := by
  have hexec := h.exec
  cases e with
  | instr =>
    rw [App.exec] at hexec
    split at hexec
    case h_1 htodo =>
      obtain rfl := Except.ok.inj hexec
      exact .loop htodo
    case h_2 i l htodo =>
      by_cases hcall : ∃ ev, i = .call ev
      · obtain ⟨ev, rfl⟩ := hcall
        obtain ⟨s, hs, ha'⟩ := bind_eq_ok.mp hexec
        obtain rfl := Except.ok.inj ha'
        exact .call htodo hs
      · exact .instr htodo (fun ev hev => hcall ⟨ev, hev⟩) hexec
  | sysTick =>
    obtain ⟨s, hs, ha'⟩ := bind_eq_ok.mp hexec
    obtain rfl := Except.ok.inj ha'
    have hen : a.sys.Enabled .sysTick := trivial
    exact .sysTick (step_of_sysExec hen hs)
  | pendSV =>
    obtain ⟨s, hs, ha'⟩ := bind_eq_ok.mp hexec
    obtain rfl := Except.ok.inj ha'
    have hen : a.sys.Enabled .pendSV := h.enabled
    exact .pendSV (step_of_sysExec hen hs)

/-- Only calls change the kernel, up to port C. -/
theorem instr_frame (hcall : ∀ ev, i ≠ .call ev) (h : i.exec c a = .ok a') :
    a'.todo = a.todo ∧ a'.sys.started = a.sys.started ∧ a'.sys.kernel.Agree a.sys.kernel := by
  cases i with
  | call ev => exact absurd rfl (hcall ev)
  | _ => exact Except.ok.inj h ▸ ⟨rfl, rfl, rfl, rfl, rfl, rfl, rfl, rfl, rfl⟩

theorem exists_instr_exec (hcall : ∀ ev, i ≠ .call ev) (c : Option TcbPtr) (a : App) :
    ∃ a', i.exec c a = .ok a' := by
  cases i with
  | call ev => exact absurd rfl (hcall ev)
  | _ => exact ⟨_, rfl⟩

/-- The active context goes on in its code. -/
theorem Step.todo_active (hs : a.Step .instr a') :
    (a.todo a.active = [] ∧ a'.todo a.active = loopCode a.active) ∨
      ∃ i l, a.todo a.active = i :: l ∧ a'.todo a.active = l := by
  cases hs.moves with
  | loop hl => exact .inl ⟨hl, goto_todo_self ..⟩
  | instr hl hcall ha' =>
    exact .inr ⟨_, _, hl, by rw [(instr_frame hcall ha').1, goto_todo_self]⟩
  | call hl => exact .inr ⟨_, _, hl, goto_todo_self ..⟩

/-- An instruction loads into the register of its own context. -/
theorem instr_reg_of_ne {d : Option TcbPtr} (hcall : ∀ ev, i ≠ .call ev)
    (h : i.exec c a = .ok a') (hd : d ≠ c) : a'.reg d = a.reg d := by
  cases i with
  | call ev => exact absurd rfl (hcall ev)
  | loadA | loadC =>
    obtain rfl := Except.ok.inj h
    exact Function.update_of_ne hd ..
  | _ =>
    obtain rfl := Except.ok.inj h
    rfl

/-- The other contexts stay where they are. -/
theorem Step.frame_of_ne (hs : a.Step e a') (hne : e = .instr → a.active ≠ c) :
    a'.todo c = a.todo c ∧ a'.reg c = a.reg c := by
  cases hs.moves with
  | loop | call => exact ⟨goto_todo_of_ne (hne rfl).symm, rfl⟩
  | instr _ hcall ha' =>
    have hreg := instr_reg_of_ne hcall ha' (hne rfl).symm
    refine ⟨?_, hreg⟩
    rw [(instr_frame hcall ha').1]
    exact goto_todo_of_ne (hne rfl).symm
  | sysTick | pendSV => exact ⟨rfl, rfl⟩

/-! ### The contexts keep to their code -/

/-- What `main` has started and what it has still to do. -/
inductive MainPhase : List (TcbPtr × BitVec 8) → List AppInstr → Prop
  | init : MainPhase [] mainCode
  | blinky : MainPhase [(blinkyThread, 3)] [.call (.start togglePC3Thread 2), .call .run]
  | togglePC3 : MainPhase [(blinkyThread, 3), (togglePC3Thread, 2)] [.call .run]
  | done : MainPhase [(blinkyThread, 3), (togglePC3Thread, 2)] []

/-- The kernel is well formed, and every context is in its code. -/
structure Inv (a : App) : Prop where
  sys : a.sys.Inv
  main : MainPhase a.sys.started (a.todo none)
  thread : ∀ t, a.todo (some t) <:+ loopCode (some t)

namespace MainPhase

variable {started : List (TcbPtr × BitVec 8)}

/-- `main` only calls the kernel. -/
theorem exists_call (h : MainPhase started (i :: l)) : ∃ ev, i = .call ev := by
  cases h with
  | init | blinky | togglePC3 => exact ⟨_, rfl⟩

theorem call (h : MainPhase started (.call ev :: l)) : MainPhase (started ++ ev.starts) l := by
  cases h with
  | init => exact .blinky
  | blinky => exact .togglePC3
  | togglePC3 => exact .done

theorem eq_of_start {t : TcbPtr} {prio : BitVec 8}
    (h : MainPhase started (.call (.start t prio) :: l)) :
    t = blinkyThread ∨ t = togglePC3Thread := by
  cases h with
  | init => exact .inl rfl
  | blinky => exact .inr rfl

/-- `main` starts its threads with fresh control blocks and priorities. -/
theorem enabled (h : MainPhase started (.call ev :: l)) (k : Kernel) :
    Sys.Enabled ⟨k, started⟩ ev := by
  cases h with
  | init => exact ⟨nofun, by decide, by decide, by simp⟩
  | blinky => exact ⟨nofun, by decide, by decide, by simp [blinkyThread, togglePC3Thread]⟩
  | togglePC3 => trivial

end MainPhase

/-- A thread of the application sleeps for one of its delays, and calls nothing else. -/
theorem eq_delay_of_mem {t : TcbPtr} (h : .call ev ∈ loopCode (some t)) :
    t ≠ .idleThread ∧ ∃ n, ev = .delay n := by
  match t, h with
  | .idleThread, h => simp [loopCode, idleThreadMain, osOnIdle, PinCall.code] at h
  | .thread 0, h =>
    simp only [loopCode, blinkyMain, ledOn, ledOff, List.mem_append, List.mem_cons, reduceCtorEq,
      AppInstr.call.injEq, List.not_mem_nil, or_false, false_or] at h
    rcases h with rfl | rfl <;> exact ⟨nofun, _, rfl⟩
  | .thread 1, h =>
    simp only [loopCode, togglePC3Main, PinCall.code, List.mem_append, List.mem_cons, reduceCtorEq,
      AppInstr.call.injEq, List.not_mem_nil, or_false, false_or] at h
    rcases h with rfl | rfl <;> exact ⟨nofun, _, rfl⟩
  | .thread (n + 2), h => cases h

namespace Inv

/-- The code that the active context of a thread has before it. -/
theorem mem_loopCode (h : a.Inv) {t : TcbPtr} (hl : a.todo (some t) = i :: l) :
    i ∈ loopCode (some t) :=
  (h.thread t).subset (hl ▸ List.mem_cons_self)

/-- A call that a context is about to make is one that the kernel allows. -/
theorem enabled_of_call (h : a.Inv) (hp : a.sys.kernel.pendSV = false)
    (hcall : a.todo a.active = .call ev :: l) : a.sys.Enabled ev := by
  rcases hc : a.active with _ | t
  · rw [hc] at hcall
    exact (hcall ▸ h.main).enabled a.sys.kernel
  · rw [hc] at hcall
    obtain ⟨hidle, n, rfl⟩ := eq_delay_of_mem (h.mem_loopCode hcall)
    have hcurr : a.sys.kernel.osCurr = some t := hc
    exact ⟨hp, by simp [hcurr], by simpa [hcurr] using hidle⟩

/-- The threads are in their code when one context has gone on in it. -/
theorem thread_goto (h : a.Inv) (hl : ∀ t, c = some t → l <:+ loopCode (some t)) (t : TcbPtr) :
    (a.goto c l).todo (some t) <:+ loopCode (some t) := by
  by_cases hc : some t = c
  · subst hc
    rw [goto_todo_self]
    exact hl t rfl
  · rw [goto_todo_of_ne hc]
    exact h.thread t

/-- The rest of the code of a context is code of it. -/
theorem suffix_of_cons (h : a.Inv) (hl : a.todo c = i :: l) (t : TcbPtr) (hc : c = some t) :
    l <:+ loopCode (some t) := by
  subst hc
  exact (List.suffix_cons i l).trans (hl ▸ h.thread t)

theorem main_goto (h : a.Inv) (hl : c = none → MainPhase a.sys.started l) :
    MainPhase a.sys.started ((a.goto c l).todo none) := by
  by_cases hc : none = c
  · subst hc
    rw [goto_todo_self]
    exact hl rfl
  · rw [goto_todo_of_ne hc]
    exact h.main

/-- Every step keeps the invariant. -/
theorem step (h : a.Inv) (hs : a.Step e a') : a'.Inv := by
  cases hs.moves with
  | loop hl =>
    refine ⟨h.sys, h.main_goto fun hc => ?_, h.thread_goto fun t hc => hc ▸ List.suffix_refl _⟩
    have hmain := h.main
    rw [← hc, hl] at hmain
    rwa [hc]
  | @instr i l a' hl hcall ha' =>
    obtain ⟨htodo, hstarted, hagree⟩ := instr_frame hcall ha'
    have hsys : a'.sys.Inv := h.sys.of_wellFormed (hagree.symm.wellFormed h.sys.toWellFormed)
      hagree.entry hstarted
    refine ⟨hsys, ?_, fun t => htodo ▸ h.thread_goto (h.suffix_of_cons hl) t⟩
    rw [htodo, hstarted]
    refine h.main_goto fun hc => ?_
    rw [hc] at hl
    obtain ⟨ev, rfl⟩ := (hl ▸ h.main).exists_call
    exact absurd rfl (hcall ev)
  | @call ev l s hl hexec =>
    have hstep := step_of_sysExec (h.enabled_of_call hs.enabled hl) hexec
    refine ⟨h.sys.step hstep, ?_, h.thread_goto (h.suffix_of_cons hl)⟩
    change MainPhase s.started ((a.goto a.active l).todo none)
    rw [hstep.started]
    by_cases hc : none = a.active
    · rw [hc, goto_todo_self]
      rw [← hc] at hl
      exact (hl ▸ h.main).call
    · have hnone : ev.starts = [] := by
        obtain ⟨t, ht⟩ := Option.ne_none_iff_exists'.mp (Ne.symm hc)
        obtain ⟨-, n, rfl⟩ := eq_delay_of_mem (h.mem_loopCode (ht ▸ hl))
        rfl
      rw [goto_todo_of_ne hc, hnone, List.append_nil]
      exact h.main
  | sysTick hs' => exact ⟨h.sys.step hs', hs'.started ▸ (List.append_nil _).symm ▸ h.main, h.thread⟩
  | pendSV hs' => exact ⟨h.sys.step hs', hs'.started ▸ (List.append_nil _).symm ▸ h.main, h.thread⟩

theorem run (h : a.Inv) (hr : Run Step a es a') : a'.Inv :=
  hr.invariant (fun _ _ _ => Inv.step) h

/-- An event that may take place takes place. -/
theorem exists_step (h : a.Inv) (hen : a.Enabled e) : ∃ a', a.Step e a' := by
  cases e with
  | instr =>
    suffices hexec : ∃ a', a.exec .instr = .ok a' from hexec.imp fun _ ha' => ⟨hen, ha'⟩
    rcases hl : a.todo a.active with _ | ⟨i, l⟩
    · exact ⟨a.goto a.active (loopCode a.active), by rw [App.exec, hl]; rfl⟩
    · rw [App.exec, hl]
      by_cases hcall : ∃ ev, i = .call ev
      · obtain ⟨ev, rfl⟩ := hcall
        obtain ⟨s, hs⟩ := h.sys.exists_step (h.enabled_of_call hen hl)
        have hexec : (a.goto a.active l).sys.exec ev = .ok s := sysExec_of_step hs
        exact ⟨{ a.goto a.active l with sys := s }, by simp only [AppInstr.exec, hexec]; rfl⟩
      · exact exists_instr_exec (fun ev hev => hcall ⟨ev, hev⟩) _ _
  | sysTick =>
    obtain ⟨s, hs⟩ := h.sys.exists_step (e := .sysTick) trivial
    exact ⟨{ a with sys := s }, hen, by rw [App.exec, sysExec_of_step hs]; rfl⟩
  | pendSV =>
    have hpend : a.sys.Enabled .pendSV := hen
    obtain ⟨s, hs⟩ := h.sys.exists_step hpend
    exact ⟨{ a with sys := s }, hen, by rw [App.exec, sysExec_of_step hs]; rfl⟩

end Inv

theorem inv_init : App.init.Inv where
  sys := Sys.inv_init
  main := .init
  thread _ := List.suffix_refl _

theorem inv_of_run (hr : Run Step .init es a) : a.Inv := inv_init.run hr

/-! ### The kernel under the application -/

/-- The step of the kernel in an event. -/
def kernelEvent (a : App) : AppEvent → List Event
  | .instr =>
    match a.todo a.active with
    | .call ev :: _ => [ev]
    | _ => []
  | .sysTick => [.sysTick]
  | .pendSV => [.pendSV]

/-- The steps of the kernel in a run. -/
def trace (a : App) (es : List AppEvent) : List Event :=
  FreeAddMonoid.toList (Run.total step? (fun a e => FreeAddMonoid.ofList (a.kernelEvent e)) a es)

theorem kernelEvent_of_ne (hl : a.todo a.active = i :: l) (hcall : ∀ ev, i ≠ .call ev) :
    a.kernelEvent .instr = [] := by
  cases i with
  | call ev => exact absurd rfl (hcall ev)
  | _ => simp only [kernelEvent, hl]

theorem kernelEvent_of_nil (hl : a.todo a.active = []) : a.kernelEvent .instr = [] := by
  simp only [kernelEvent, hl]

theorem kernelEvent_of_call (hl : a.todo a.active = .call ev :: l) :
    a.kernelEvent .instr = [ev] := by
  simp only [kernelEvent, hl]

/-- In an event the kernel takes its step, or stays as it is up to port C. -/
inductive KernelStep (a : App) (e : AppEvent) (a' : App) : Prop
  | step {ev : Event} (hev : a.kernelEvent e = [ev]) (hs : a.sys.Step ev a'.sys) : KernelStep a e a'
  | stay (hev : a.kernelEvent e = []) (hstarted : a'.sys.started = a.sys.started)
      (hagree : a'.sys.kernel.Agree a.sys.kernel) : KernelStep a e a'

theorem Inv.kernelStep (h : a.Inv) (hs : a.Step e a') : a.KernelStep e a' := by
  cases hs.moves with
  | loop hl => exact .stay (kernelEvent_of_nil hl) rfl (.refl _)
  | instr hl hcall ha' =>
    obtain ⟨-, hstarted, hagree⟩ := instr_frame hcall ha'
    exact .stay (kernelEvent_of_ne hl hcall) hstarted hagree
  | call hl hexec =>
    exact .step (kernelEvent_of_call hl)
      (step_of_sysExec (h.enabled_of_call hs.enabled hl) hexec)
  | sysTick hs' => exact .step rfl hs'
  | pendSV hs' => exact .step rfl hs'

/-- The kernel of the application goes through a run of the kernel. -/
theorem exists_trace_run (hr : Run Step .init es a) : ∃ s, Run Sys.Step .init (init.trace es) s ∧
    a.sys.kernel.Agree s.kernel ∧ a.sys.started = s.started := by
  have heval (a : App) (e : AppEvent) (a' : App) : a.Step e a' → a.step? e = some a' :=
    Run.Guarded.step?_eq_some.mpr
  refine (Run.invariant_total (P := fun a (m : FreeAddMonoid Event) => a.Inv ∧ ∃ s,
    Run Sys.Step .init (FreeAddMonoid.toList m) s ∧ a.sys.kernel.Agree s.kernel ∧
      a.sys.started = s.started) heval ?_ hr ?_).2
  · rintro a e a' m ⟨ha, s, hs, hagree, hstarted⟩ hstep
    refine ⟨ha.step hstep, ?_⟩
    rw [FreeAddMonoid.toList_add, FreeAddMonoid.toList_ofList]
    cases ha.kernelStep hstep with
    | @step ev hev hstep' =>
      obtain ⟨s', hs', hagree', hstarted'⟩ :=
        ha.sys.exists_agree_step (Sys.inv_of_run hs) hstep' hagree hstarted
      exact ⟨s', hev ▸ Run.concat_iff.mpr ⟨s, hs, hs'⟩, hagree', hstarted'⟩
    | stay hev hstarted' hagree' =>
      rw [hev, List.append_nil]
      exact ⟨s, hs, hagree'.trans hagree, hstarted'.trans hstarted⟩
  · exact ⟨inv_init, .init, .nil _, .refl _, rfl⟩

/-- The contexts are `main`, the idle thread and the two threads of the application. -/
theorem Inv.active_mem (h : a.Inv) (hp : a.sys.kernel.pendSV = false) :
    a.active ∈ [none, some .idleThread, some blinkyThread, some togglePC3Thread] := by
  rcases hc : a.active with _ | t
  · simp
  · rcases h.sys.curr hp t hc with rfl | ⟨i, -, hi⟩
    · simp
    · obtain ⟨prio, hmem, -⟩ := h.sys.started_of_entry i t hi
      have hmain := h.main
      generalize a.sys.started = started, a.todo none = l at hmem hmain
      have ht : t = blinkyThread ∨ t = togglePC3Thread := by cases hmain <;> grind
      rcases ht with rfl | rfl <;> simp

/-- **The application keeps to the contract of the kernel.** In every run, with exceptions taken
between any two of its steps, what happens in the kernel is a run of the kernel; the processor is in
`main` or in one of its three threads; and whatever may happen next does happen: no call of the
application is one that the kernel does not allow, and none faults. -/
theorem calls_allowed (hr : Run Step .init es a) :
    (∃ s, Run Sys.Step .init (init.trace es) s ∧ a.sys.kernel.Agree s.kernel ∧
      a.sys.started = s.started) ∧
    (a.sys.kernel.pendSV = false →
      a.active ∈ [none, some .idleThread, some blinkyThread, some togglePC3Thread] ∧
      ∀ ev l, a.todo a.active = .call ev :: l → a.sys.Enabled ev) ∧
    ∀ e, a.Enabled e → ∃ a', a.Step e a' := by
  have h := inv_of_run hr
  exact ⟨exists_trace_run hr, fun hp => ⟨h.active_mem hp, fun _ _ => h.enabled_of_call hp⟩,
    fun _ => h.exists_step⟩

/-- `main` is over, and SysTick has come between the load and the store of `Led_On`. -/
theorem calls_allowed_led : ∃ a, Run Step .init
      [.instr, .instr, .instr, .pendSV, .instr, .sysTick, .instr] a ∧
    a.todo a.active = .call (.delay 10) :: (ledOff ++ [.call (.delay 20)]) ∧
    a.sys.Enabled (.delay 10) := by
  have hrun : (Run.eval step? .init
      [.instr, .instr, .instr, .pendSV, .instr, .sysTick, .instr]).any (fun a =>
        decide (a.todo a.active = .call (.delay 10) :: (ledOff ++ [.call (.delay 20)])) &&
          decide (a.sys.kernel.pendSV = false)) = true := by decide +kernel
  obtain ⟨a, hr, h⟩ := Run.Guarded.exists_run_of_any hrun
  obtain ⟨htodo, hp⟩ := Bool.and_eq_true_iff.mp h
  exact ⟨a, hr, of_decide_eq_true htodo,
    ((calls_allowed hr).2.1 (of_decide_eq_true hp)).2 _ _ (of_decide_eq_true htodo)⟩

end App

end LiteRTOS
