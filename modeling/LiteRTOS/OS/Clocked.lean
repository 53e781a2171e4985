import LiteRTOS.Library.Simulation
import LiteRTOS.Library.Total
import LiteRTOS.Mcal.SysTick
import LiteRTOS.OS.StepEffects
import LiteRTOS.OS.Timer

/-!
# The kernel on the clock of the processor

The steps of the kernel take place between cycles of the processor clock. The SysTick timer, whose
registers are in the System Control Space of the kernel state, makes the exception pending once in a
period, and `SysTick_Handler` runs at some point from then on: interrupts may be masked for some
cycles. If it has not run when the timer comes to zero again, a tick is lost. The cycles since the
timer was at zero, with a period for a pending exception, are the cycles that the kernel has not
been told of yet (`Clocked.owed`).

So `millisec_counter` counts periods of 180001 cycles, which are not quite milliseconds, and a delay
of `n` ends with the `n`-th of them, which may come up to a period early, since the first one has
begun before the call.

## Main definitions

* `Clocked`, `Clocked.Step`: the kernel and the pending exception.
* `Clocked.Lost`, `Clocked.lostTicks`: the ticks that are lost.
* `Clocked.owed`: the cycles that have not been counted.

## Main results

* `Clocked.Inv.owed_run`: cycles and ticks in a run.
* `Clocked.millisecCounter_cycles`: the counter in terms of cycles.
* `Clocked.delay_cycles`: how many cycles a delay takes.
-/

namespace LiteRTOS

open ByteMemory Kernel

/-- The kernel with the registers of the timer, and whether the SysTick exception is pending. -/
structure Clocked where
  sys : Sys
  pending : Bool

/-- A cycle of the processor clock, or a step of the kernel. -/
inductive ClockedEvent
  | cycle
  | kernel (e : Event)
  deriving DecidableEq

/-- The steps of the kernel in an event. -/
def ClockedEvent.kernelEvents : ClockedEvent → List Event
  | .cycle => []
  | .kernel e => [e]

namespace Clocked

/-- The registers of the timer and of the interrupt controller. -/
def scs (a : Clocked) : ByteMemory := a.sys.kernel.scs

/-- A cycle of the processor clock. -/
def tickClock (a : Clocked) : Clocked where
  sys := { a.sys with kernel.scs := sysTickCycle a.scs }
  pending := a.pending || sysTickExpires a.scs

/-- SysTick is taken when it is pending. -/
def Enabled (a : Clocked) : ClockedEvent → Prop
  | .cycle => True
  | .kernel e => a.sys.Enabled e ∧ (e = .sysTick → a.pending = true)

instance (a : Clocked) (e : ClockedEvent) : Decidable (a.Enabled e) := by
  cases e <;> unfold Enabled <;> infer_instance

/-- The effect of an event. -/
def exec (a : Clocked) : ClockedEvent → Except Fault Clocked
  | .cycle => return a.tickClock
  | .kernel e => do
    let kernel ← e.exec a.sys.kernel
    return ⟨⟨kernel, a.sys.started ++ e.starts⟩, a.pending && decide (e ≠ .sysTick)⟩

/-- One event. -/
abbrev Step : Clocked → ClockedEvent → Clocked → Prop := Run.Guarded Enabled exec

/-- The timer comes to zero while the exception is still pending. -/
def Lost (a : Clocked) (e : ClockedEvent) : Prop :=
  e = .cycle ∧ a.pending = true ∧ sysTickExpires a.scs = true

instance (a : Clocked) (e : ClockedEvent) : Decidable (a.Lost e) :=
  inferInstanceAs (Decidable (_ ∧ _ ∧ _))

/-- The cycles that `SysTick_Handler` has not counted yet. -/
def owed (a : Clocked) : ℕ := sysTickElapsed a.scs + if a.pending then sysTickPeriod else 0

/-- The event `e`, carried out if it may take place. -/
abbrev step? : Clocked → ClockedEvent → Option Clocked := Run.Guarded.step? Enabled exec

/-- The ticks that are lost in a run. -/
def lostTicks (a : Clocked) (es : List ClockedEvent) : ℕ :=
  Run.total step? (fun a e => if a.Lost e then 1 else 0) a es

/-- The state after `SysTick_Init` and `OS_Init`, with no cycle in between. -/
def init : Clocked where
  sys := ⟨(osInit { Kernel.reset with scs := sysTickInit Kernel.reset.scs }).toOption.getD
    Kernel.reset, []⟩
  pending := false

/-- The event `e` is a call of `OS_msDelay` by the thread `t`. -/
def Calls (a : Clocked) (t : TcbPtr) (e : ClockedEvent) : Prop :=
  a.sys.kernel.osCurr = some t ∧ ∃ n, e = .kernel (.delay n)

/-- The kernel is well formed, and the timer runs. -/
structure Inv (a : Clocked) : Prop where
  sys : a.sys.Inv
  runs : SysTickRuns a.scs

/-- The system `s` is in the state of the kernel, but for the registers of the timer. -/
structure Follows (a : Clocked) (s : Sys) : Prop where
  inv : a.Inv
  sys : s.Inv
  agree : a.sys.kernel.Agree s.kernel
  started : a.sys.started = s.started

variable {a a' a₁ a₂ : Clocked} {s : Sys} {e : ClockedEvent} {ev : Event}
  {es es₀ : List ClockedEvent} {t : TcbPtr} {n : BitVec 32}

theorem owed_eq (a : Clocked) :
    a.owed = sysTickElapsed a.scs + sysTickPeriod * a.pending.toNat := by
  rw [owed]
  cases a.pending <;> rfl

/-! ### One event -/

/-- An event is a cycle, or a step of the kernel. -/
inductive Moves (a : Clocked) : ClockedEvent → Clocked → Prop
  | cycle : Moves a .cycle a.tickClock
  | kernel {ev : Event} {s : Sys} (hs : a.sys.Step ev s) (hpending : ev = .sysTick → a.pending) :
      Moves a (.kernel ev) ⟨s, a.pending && decide (ev ≠ .sysTick)⟩

theorem Step.moves (h : a.Step e a') : a.Moves e a' := by
  have hexec := h.exec
  cases e with
  | cycle => exact Except.ok.inj hexec ▸ .cycle
  | kernel ev =>
    obtain ⟨k, hk, ha'⟩ := bind_eq_ok.mp hexec
    obtain rfl := Except.ok.inj ha'
    have hs : a.sys.Step ev ⟨k, a.sys.started ++ ev.starts⟩ := ⟨h.enabled.1, hk, rfl⟩
    exact .kernel hs h.enabled.2

/-- A cycle changes nothing that scheduling depends on. -/
theorem agree_tickClock (a : Clocked) : a.tickClock.sys.kernel.Agree a.sys.kernel where
  osCurr := rfl
  osNext := rfl
  osThread := rfl
  osReadySet := rfl
  osDelayedSet := rfl
  tcb := rfl
  pendSV := congrArg (BitVec.getLsbD · 28) (SysTickRuns.load32_cycle (by decide) a.scs)

/-- The kernel leaves the timer alone. -/
theorem timer_step (h : a.sys.Inv) {s : Sys} (hs : a.sys.Step ev s) {r : BitVec 32}
    (hr : r ∈ [stkCtrl, stkLoad, stkVal]) : load32 s.kernel.scs r = load32 a.scs r := by
  simp only [List.mem_cons, List.not_mem_nil, or_false] at hr
  rcases hr with rfl | rfl | rfl <;> exact h.load32_step hs (by decide) (by decide)

namespace Inv

theorem step (h : a.Inv) (hs : a.Step e a') : a'.Inv := by
  cases hs.moves with
  | cycle => exact ⟨h.sys.of_agree (agree_tickClock a), h.runs.cycle⟩
  | kernel hs' =>
    have htimer {r : BitVec 32} := timer_step h.sys hs' (r := r)
    exact ⟨h.sys.step hs', h.runs.of_eq (htimer (by simp)) (htimer (by simp)) (htimer (by simp))⟩

theorem run (h : a.Inv) (hr : Run Step a es a') : a'.Inv :=
  hr.invariant (fun _ _ _ => step) h

/-- A cycle is owed to the kernel, and a tick pays for a period, as does one that is lost. -/
theorem owed_step (h : a.Inv) (hs : a.Step e a') :
    a'.owed + sysTickPeriod * ((if e = .kernel .sysTick then 1 else 0) +
      if a.Lost e then 1 else 0) = a.owed + if e = .cycle then 1 else 0 := by
  cases hs.moves with
  | cycle =>
    have helapsed := h.runs.elapsed_cycle
    have howed : a.tickClock.owed = sysTickElapsed (sysTickCycle a.scs) +
      if a.pending || sysTickExpires a.scs then sysTickPeriod else 0 := rfl
    have hlost : a.Lost .cycle ↔ a.pending = true ∧ sysTickExpires a.scs = true :=
      ⟨And.right, fun h => ⟨rfl, h⟩⟩
    rw [howed]
    simp only [owed, hlost]
    cases hexpires : sysTickExpires a.scs <;> cases hpending : a.pending <;>
      simp [hexpires] at helapsed ⊢ <;> omega
  | @kernel ev s hs' hpending =>
    have hval : load32 s.kernel.scs stkVal = load32 a.scs stkVal := timer_step h.sys hs' (by simp)
    have helapsed : sysTickElapsed s.kernel.scs = sysTickElapsed a.scs := by
      rw [sysTickElapsed, hval]
      rfl
    have howed : owed ⟨s, a.pending && decide (ev ≠ .sysTick)⟩ = sysTickElapsed s.kernel.scs +
      if a.pending && decide (ev ≠ .sysTick) then sysTickPeriod else 0 := rfl
    have hlost : ¬a.Lost (.kernel ev) := fun h => by cases h.1
    rw [howed, owed, helapsed, if_neg hlost]
    by_cases he : ev = .sysTick
    · subst he
      simp [hpending rfl]
    · simp [he]

end Inv

theorem lostTicks_cons (h : a.Step e a₁) :
    a.lostTicks (e :: es) = (if a.Lost e then 1 else 0) + a₁.lostTicks es :=
  Run.total_cons (Run.Guarded.step?_eq_some.mpr h)

/-- `SysTick_Init` and `OS_Init`. -/
theorem inv_init : init.Inv where
  sys := by
    have hapart : Apart nvicSysPri3R scbIcsr := by decide
    have hpend : init.sys.kernel.pendSV = Sys.init.kernel.pendSV :=
      (pendSVSet_store32 hapart _ _).trans ((pendSVSet_sysTickInit _).trans rfl)
    exact Sys.inv_init.of_agree ⟨rfl, rfl, rfl, rfl, rfl, rfl, hpend⟩
  runs := by
    have hpri {r : BitVec 32} (hr : Apart nvicSysPri3R r) :
        load32 init.scs r = load32 (sysTickInit Kernel.reset.scs) r := load32_store32_of_apart hr _
    exact (sysTickRuns_init _).1.of_eq (hpri (by decide)) (hpri (by decide)) (hpri (by decide))

/-- Whatever may happen does happen, without a fault. -/
theorem Inv.exists_step (h : a.Inv) (hen : a.Enabled e) : ∃ a', a.Step e a' := by
  cases e with
  | cycle => exact ⟨a.tickClock, trivial, rfl⟩
  | kernel ev =>
    obtain ⟨s, hs⟩ := h.sys.exists_step hen.1
    exact ⟨_, hen, bind_eq_ok.mpr ⟨_, hs.exec, rfl⟩⟩

theorem Inv.exists_run_cycles (h : a.Inv) (c : ℕ) :
    ∃ a', Run Step a (List.replicate c .cycle) a' := by
  induction c generalizing a with
  | zero => exact ⟨a, .nil a⟩
  | succ c ih =>
    obtain ⟨a₁, hs⟩ := h.exists_step (e := .cycle) trivial
    obtain ⟨a', hr⟩ := ih (h.step hs)
    exact ⟨a', .cons hs hr⟩

theorem inv_of_run (hr : Run Step .init es a) : a.Inv := inv_init.run hr

/-! ### Cycles and ticks -/

namespace Inv

/-- Every cycle of a run is owed to the kernel or paid for. -/
theorem owed_run (h : a.Inv) (hr : Run Step a es a') :
    a'.owed + sysTickPeriod * (es.count (.kernel .sysTick) + a.lostTicks es) =
      a.owed + es.count .cycle := by
  induction hr with
  | nil a => rfl
  | @cons a a₁ a' e es hs hr ih =>
    have hrest := ih (h.step hs)
    have hstep := h.owed_step hs
    rw [lostTicks_cons hs, List.count_cons, List.count_cons]
    simp only [beq_iff_eq, Nat.mul_add] at hrest hstep ⊢
    omega

/-- Every time the timer has come to zero, the exception has been taken, is pending, or is lost. -/
theorem ticks_run (h : a.Inv) (hr : Run Step a es a') :
    sysTickElapsed a'.scs = (sysTickElapsed a.scs + es.count .cycle) % sysTickPeriod ∧
    es.count (.kernel .sysTick) + a.lostTicks es + a'.pending.toNat =
      a.pending.toNat + (sysTickElapsed a.scs + es.count .cycle) / sysTickPeriod := by
  have hrun := h.owed_run hr
  have hlt := (h.run hr).runs.elapsed_lt
  rw [owed_eq, owed_eq] at hrun
  rw [sysTickPeriod] at *
  omega

theorem millisecCounter_step (h : a.Inv) (hs : a.Step e a') :
    a'.sys.kernel.millisecCounter = a.sys.kernel.millisecCounter +
      if e = .kernel .sysTick then 1 else 0 := by
  cases hs.moves with
  | cycle => exact (BitVec.add_zero _).symm
  | @kernel ev s hs' =>
    rw [h.sys.millisecCounter_step hs']
    by_cases he : ev = .sysTick
    · simp [he]
    · simp [he]

/-- The counter counts the exceptions that are taken. -/
theorem millisecCounter_run (h : a.Inv) (hr : Run Step a es a') :
    a'.sys.kernel.millisecCounter =
      a.sys.kernel.millisecCounter + BitVec.ofNat 64 (es.count (.kernel .sysTick)) := by
  induction hr with
  | nil a => exact (BitVec.add_zero _).symm
  | @cons a a₁ a' e es hs hr ih =>
    rw [ih (h.step hs), h.millisecCounter_step hs, List.count_cons, BitVec.add_assoc]
    simp only [beq_iff_eq]
    split_ifs
    · rw [BitVec.ofNat_add, BitVec.add_comm (BitVec.ofNat 64 (es.count _))]
      rfl
    · exact congrArg _ (BitVec.zero_add _)

end Inv

/-- **The counter of milliseconds counts periods of 180001 cycles.** Between two states that the
clocked system reaches, with any events in between, every period of the timer that has come to its
end is in the counter, is still pending, or was lost while an exception was pending already. -/
theorem millisecCounter_cycles (hr₀ : Run Step .init es₀ a) (hr : Run Step a es a') :
    sysTickElapsed a'.scs = (sysTickElapsed a.scs + es.count .cycle) % sysTickPeriod ∧
    a'.sys.kernel.millisecCounter + BitVec.ofNat 64 (a'.pending.toNat + a.lostTicks es) =
      a.sys.kernel.millisecCounter + BitVec.ofNat 64 (a.pending.toNat +
        (sysTickElapsed a.scs + es.count .cycle) / sysTickPeriod) := by
  have h := inv_of_run hr₀
  obtain ⟨helapsed, hticks⟩ := h.ticks_run hr
  refine ⟨helapsed, ?_⟩
  rw [h.millisecCounter_run hr, BitVec.add_assoc, ← BitVec.ofNat_add, ← hticks]
  congr 2
  omega

/-- Two periods without the exception, which is pending at the end of the first one and lost at the
end of the second one. -/
theorem millisecCounter_cycles_two : ∃ a, Run Step .init (List.replicate 360002 .cycle) a ∧
    a.sys.kernel.millisecCounter + BitVec.ofNat 64
      (a.pending.toNat + init.lostTicks (List.replicate 360002 .cycle)) = 2 := by
  obtain ⟨a, hr⟩ := inv_init.exists_run_cycles 360002
  refine ⟨a, hr, (millisecCounter_cycles (.nil init) hr).2.trans ?_⟩
  rw [List.count_replicate_self]
  decide +kernel

/-! ### The kernel of the clocked system -/

namespace Follows

theorem step (h : a.Follows s) (hs : a.Step e a') :
    ∃ s', Run Sys.Step s e.kernelEvents s' ∧ a'.Follows s' := by
  have h' := h.inv.step hs
  cases hs.moves with
  | cycle => exact ⟨s, .nil s, h', h.sys, (agree_tickClock a).trans h.agree, h.started⟩
  | kernel hs' =>
    obtain ⟨s', hs'', hagree, hstarted⟩ := h.inv.sys.exists_agree_step h.sys hs' h.agree h.started
    exact ⟨s', .cons hs'' (.nil s'), h', h.sys.step hs'', hagree, hstarted⟩

theorem run (h : a.Follows s) (hr : Run Step a es a') :
    ∃ s', Run Sys.Step s (es.flatMap ClockedEvent.kernelEvents) s' ∧ a'.Follows s' :=
  hr.simulate (fun _ _ _ _ h hs => h.step hs) h

theorem everyStep_not_calls (h : a.Follows s) (hr : Run Step a es a')
    (hcalls : Run.EveryStep Step (fun a e => ¬a.Calls t e) a es) :
    Run.EveryStep Sys.Step (fun s e => ¬s.Calls t e) s
      (es.flatMap ClockedEvent.kernelEvents) := by
  have hdet (s : Sys) (e : Event) (s₁ s₂ : Sys) : s.Step e s₁ → s.Step e s₂ → s₁ = s₂ :=
    Sys.Step.unique
  refine Run.EveryStep.simulate hdet (fun a e a' s h hs hcall => ?_) hr hcalls h
  obtain ⟨s', hs', h'⟩ := h.step hs
  refine ⟨s', hs', h', ?_⟩
  cases e with
  | cycle => exact Run.everyStep_nil
  | kernel ev =>
    refine .cons_of_forall ?_ fun _ _ => Run.everyStep_nil
    rintro ⟨hcurr, n, rfl⟩
    exact hcall ⟨h.agree.osCurr.trans hcurr, n, rfl⟩

end Follows

theorem Inv.follows (h : a.Inv) : a.Follows a.sys := ⟨h, h.sys, .refl _, rfl⟩

theorem count_kernelEvents (es : List ClockedEvent) :
    (es.flatMap ClockedEvent.kernelEvents).count .sysTick = es.count (.kernel .sysTick) := by
  induction es with
  | nil => rfl
  | cons e es ih =>
    rw [List.flatMap_cons, List.count_append, ih, List.count_cons, Nat.add_comm]
    cases e with
    | cycle => rfl
    | kernel ev => simp [ClockedEvent.kernelEvents, List.count_singleton]

/-! ### A whole period -/

/-- From the beginning of a period, the exception becomes pending at its end. -/
theorem Inv.exists_run_period (h : a.Inv) (howed : a.owed = 0) :
    ∃ a', Run Step a (List.replicate 180001 .cycle) a' ∧ a'.pending = true := by
  obtain ⟨a₁, hr₁⟩ := h.exists_run_cycles 180000
  have h₁ := h.run hr₁
  obtain ⟨a₂, hs⟩ := h₁.exists_step (e := .cycle) trivial
  obtain ⟨helapsed₁, hticks₁⟩ := h.ticks_run hr₁
  obtain ⟨-, hticks₂⟩ := h₁.ticks_run (.cons hs (.nil a₂))
  rw [owed_eq] at howed
  rw [List.count_replicate_self, sysTickPeriod] at *
  have hpending₁ : a₁.pending.toNat = 0 := by omega
  have hlost : ¬a₁.Lost .cycle := fun hl => by
    rw [hl.2.1] at hpending₁
    cases hpending₁
  refine ⟨a₂, ?_, ?_⟩
  · rw [show 180001 = 180000 + 1 from rfl, List.replicate_succ']
    exact Run.concat_iff.mpr ⟨a₁, hr₁, hs⟩
  · have helapsed₁ : sysTickElapsed a₁.scs = 180000 := by omega
    rw [lostTicks_cons hs, if_neg hlost, hpending₁, helapsed₁] at hticks₂
    simpa [lostTicks] using hticks₂

/-- A period of the timer, and the exception at its end. -/
def onePeriod : List ClockedEvent := List.replicate 180001 .cycle ++ [.kernel .sysTick]

theorem eq_of_mem_onePeriod (he : e ∈ onePeriod) : e = .cycle ∨ e = .kernel .sysTick :=
  (List.mem_append.mp he).imp List.eq_of_mem_replicate List.mem_singleton.mp

theorem count_onePeriod : onePeriod.count .cycle = 180001 ∧
    0 < onePeriod.count (.kernel .sysTick) := by
  constructor
  · rw [onePeriod, List.count_append, List.count_replicate_self]
    rfl
  · exact List.count_pos_iff.mpr (List.mem_append_right _ List.mem_cons_self)

/-! ### The delay in cycles -/

/-- A call of `OS_msDelay` leaves the timer and the exception alone. -/
theorem Inv.owed_delay (h : a.Inv) (hs : a.Step (.kernel (.delay n)) a') : a'.owed = a.owed := by
  have hlost : ¬a.Lost (.kernel (.delay n)) := fun h => by cases h.1
  simpa [hlost] using h.owed_step hs

/-- **A delay in cycles.** Let the current thread `t` call `OS_msDelay n`, with `n` not zero, in a
state that the clocked system reaches, and let any events follow. Count a period of 180001 cycles
for each of the `n` ticks, for each tick that has been lost since the call, and for the exception if
it is pending. The thread sleeps as long as the cycles since the call, with those that were owed to
the kernel then, are fewer, and when they are not, it is ready until it calls `OS_msDelay` again. -/
theorem delay_cycles (hr₀ : Run Step .init es₀ a) (hn : n ≠ 0)
    (hcurr : a.sys.kernel.osCurr = some t) (hcall : a.Step (.kernel (.delay n)) a₁)
    (hr : Run Step a₁ es a') :
    (a.owed + es.count .cycle <
      sysTickPeriod * (n.toNat + a₁.lostTicks es + a'.pending.toNat) →
      a'.sys.kernel.IsDelayed t) ∧
    (sysTickPeriod * (n.toNat + a₁.lostTicks es + a'.pending.toNat) ≤
      a.owed + es.count .cycle →
      Run.EveryStep Step (fun a e => ¬a.Calls t e) a₁ es → a'.sys.kernel.IsReady t) := by
  have h := inv_of_run hr₀
  obtain ⟨s₁, hs₁, h₁⟩ := h.follows.step hcall
  obtain ⟨s', hs', h'⟩ := h₁.run hr
  obtain ⟨_, hcall', hnil⟩ := Run.cons_iff.mp hs₁
  obtain rfl := Run.nil_iff.mp hnil
  obtain ⟨i, hw⟩ := h.sys.waits_of_delay hcall' hcurr
  have hcount := count_kernelEvents es
  have howed : a'.owed + sysTickPeriod * (es.count (.kernel .sysTick) + a₁.lostTicks es) =
    a.owed + es.count .cycle := h.owed_delay hcall ▸ h₁.inv.owed_run hr
  have hlt := h'.inv.runs.elapsed_lt
  rw [owed_eq, sysTickPeriod] at howed
  rw [sysTickPeriod] at hlt ⊢
  constructor
  · intro hc
    have hw' := h₁.sys.waits_run hs' hw (by omega)
    exact (h'.agree.symm.waits hw').isDelayed h'.inv.sys.toTable
  · intro hc hcalls
    have hpos : 0 < n.toNat := Nat.pos_of_ne_zero fun h0 => hn (BitVec.eq_of_toNat_eq h0)
    have hw' := h₁.sys.woken_of_waits_run hs' hw hpos (by omega) (h₁.everyStep_not_calls hr hcalls)
    exact (h'.agree.symm.woken hw').isReady h'.inv.sys.toTable

/-- A delay of one tick ends after a period. -/
theorem delay_cycles_one : ∃ a a₁ a', Run Step .init
      [.kernel (.start (.thread 7) 3), .kernel .run, .kernel .pendSV] a ∧
    a.Step (.kernel (.delay 1)) a₁ ∧
    Run Step a₁ onePeriod a' ∧
    a'.sys.kernel.IsReady (.thread 7) := by
  have hrun : (Run.eval step? init
      [.kernel (.start (.thread 7) 3), .kernel .run, .kernel .pendSV]).any (fun a =>
        decide (a.sys.kernel.osCurr = some (.thread 7)) &&
          decide (a.Enabled (.kernel (.delay 1))) && decide (a.owed = 0)) = true := by
    decide +kernel
  obtain ⟨a, hr₀, ha⟩ := Run.Guarded.exists_run_of_any hrun
  simp only [Bool.and_eq_true, decide_eq_true_eq] at ha
  obtain ⟨⟨hcurr, hen⟩, howed⟩ := ha
  have h := inv_of_run hr₀
  obtain ⟨a₁, hcall⟩ := h.exists_step hen
  have h₁ := h.step hcall
  have howed₁ : a₁.owed = 0 := (h.owed_delay hcall).trans howed
  obtain ⟨a₂, hr₂, hpending⟩ := h₁.exists_run_period howed₁
  obtain ⟨a', hs⟩ := (h₁.run hr₂).exists_step (e := .kernel .sysTick) ⟨trivial, fun _ => hpending⟩
  have hr : Run Step a₁ onePeriod a' := Run.concat_iff.mpr ⟨a₂, hr₂, hs⟩
  obtain ⟨hcycles, htick⟩ := count_onePeriod
  refine ⟨a, a₁, a', hr₀, hcall, hr, (delay_cycles hr₀ (by decide) hcurr hcall hr).2 ?_ ?_⟩
  · have hticks := (h₁.ticks_run hr).2
    rw [owed_eq] at howed₁
    rw [hcycles, sysTickPeriod] at *
    change 180001 * (1 + _ + _) ≤ _
    omega
  · refine .of_forall_mem fun e he b hcalls => ?_
    obtain ⟨-, n, rfl⟩ := hcalls
    rcases eq_of_mem_onePeriod he with hdelay | hdelay <;> cases hdelay

end Clocked

end LiteRTOS
