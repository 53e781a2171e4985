import LiteRTOS.OS.Delay

/-!
# The timers of `Gpt.h` and the delays of `Os.c`

`TimerStart n` adds `n` milliseconds to the counter of `Gpt.c`, and `TimerTimeout` says whether the
counter has passed the value so obtained. `SysTick_Handler` counts the milliseconds and lets
`OS_Tick` take one off the delays. A thread that starts a timer and then sleeps for the same number
of ticks is woken when the counter is at the deadline, which `TimerTimeout` does not take for
expired: it does so one tick later.

## Main definitions

* `gptGetTimeElapsed`, `timerStart`, `timerTimeout`: the functions of `Gpt.h` and `Gpt.c`.

## Main results

* `Sys.Inv.millisecCounter_run`: the counter counts the ticks of a run.
* `timer_expires_after_delay`: the timer and the delay in one run.
-/

namespace LiteRTOS

open Kernel

/-- `Gpt_GetTimeElapsed`. Its argument is not used. -/
def gptGetTimeElapsed (_dummyChannelIndex : BitVec 8) (k : Kernel) : BitVec 64 := k.millisecCounter

/-- `TimerStart`. -/
def timerStart (millisec : BitVec 32) (k : Kernel) : BitVec 64 :=
  gptGetTimeElapsed 0 k + millisec.setWidth 64

/-- `TimerTimeout`. -/
def timerTimeout (myTimer : BitVec 64) (k : Kernel) : Bool :=
  if gptGetTimeElapsed 0 k > myTimer then true else false

variable {s s' sₐ s₁ s₂ : Sys} {k k' : Kernel} {e : Event} {es es₀ es₁ : List Event}
  {t : TcbPtr} {n : BitVec 32}

/-! ### The counter counts the ticks -/

theorem osRun_millisecCounter (h : osRun k = .ok k') : k'.millisecCounter = k.millisecCounter := by
  obtain rfl := Except.ok.inj ((osRun_eq k).symm.trans h)
  exact resched_millisecCounter _

theorem pendSVHandler_millisecCounter (h : pendSVHandler k = .ok k') :
    k'.millisecCounter = k.millisecCounter := by
  obtain ⟨next, -, h⟩ := bind_eq_ok.mp h
  exact Except.ok.inj h ▸ rfl

theorem osMsDelay_millisecCounter (h : osMsDelay n k = .ok k') :
    k'.millisecCounter = k.millisecCounter := by
  obtain ⟨curr, -, h⟩ := bind_eq_ok.mp h
  obtain ⟨bit, -, h⟩ := bind_eq_ok.mp h
  obtain ⟨k₁, hk₁, h⟩ := bind_eq_ok.mp h
  obtain rfl := Except.ok.inj ((osSched_eq _).symm.trans hk₁)
  exact Except.ok.inj h ▸ resched_millisecCounter _

/-- SysTick adds one to the counter, and no other step changes it. -/
theorem Sys.Inv.millisecCounter_step (h : s.Inv) (hs : s.Step e s') :
    s'.kernel.millisecCounter =
      if e = .sysTick then s.kernel.millisecCounter + 1 else s.kernel.millisecCounter := by
  have hexec := hs.exec
  cases e with
  | start t prio =>
    obtain ⟨i, hprio, -, -⟩ := h.new_of_enabled hs.enabled
    have hk' := osThreadStart_eq (k := s.kernel) t hprio
    exact Except.ok.inj (hk'.symm.trans hexec) ▸ rfl
  | run => exact osRun_millisecCounter hexec
  | sysTick =>
    obtain ⟨k', hk', -, hcounter⟩ := sysTickHandler_agree h.indexed_osDelayedSet
    obtain rfl := Except.ok.inj (hk'.symm.trans hexec)
    exact hcounter
  | pendSV => exact pendSVHandler_millisecCounter hexec
  | delay ticks => exact osMsDelay_millisecCounter hexec

/-- The counter counts the ticks of a run, modulo `2^64`. -/
theorem Sys.Inv.millisecCounter_run (h : s.Inv) (hr : Run Sys.Step s es s') :
    s'.kernel.millisecCounter =
      s.kernel.millisecCounter + BitVec.ofNat 64 (es.count .sysTick) := by
  induction hr with
  | nil s => simp
  | @cons s s₁ s' e es hs hr ih =>
    rw [ih (h.step hs), h.millisecCounter_step hs]
    by_cases he : e = .sysTick
    · subst he
      rw [if_pos rfl, List.count_cons_self]
      bv_omega
    · rw [if_neg he, List.count_cons_of_ne he]

/-- Every value of the counter is reached. -/
theorem exists_millisecCounter_eq (c : BitVec 64) :
    ∃ es s, Run Sys.Step .init es s ∧ s.kernel.millisecCounter = c := by
  obtain ⟨s, hr⟩ := Sys.inv_init.exists_run_ticks c.toNat
  refine ⟨_, s, hr, ?_⟩
  rw [Sys.inv_init.millisecCounter_run hr, List.count_replicate_self, BitVec.ofNat_toNat]
  change 0 + c.setWidth 64 = c
  simp

/-- The timer has expired when more milliseconds have passed than it was started for. -/
theorem timerTimeout_iff {c : ℕ} (hc : k'.millisecCounter = k.millisecCounter + BitVec.ofNat 64 c)
    (hn : k.millisecCounter.toNat + n.toNat < 2 ^ 64)
    (hwrap : k.millisecCounter.toNat + c < 2 ^ 64) :
    timerTimeout (timerStart n k) k' = true ↔ n.toNat < c := by
  have hiff : gptGetTimeElapsed 0 k' > timerStart n k ↔ n.toNat < c := by
    rw [gptGetTimeElapsed, timerStart, gptGetTimeElapsed, hc, gt_iff_lt, BitVec.lt_def,
      BitVec.toNat_add, BitVec.toNat_add, BitVec.toNat_setWidth, BitVec.toNat_ofNat]
    omega
  rw [timerTimeout]
  split_ifs with h
  · exact iff_of_true rfl (hiff.mp h)
  · exact iff_of_false not_false fun hlt => h (hiff.mpr hlt)

/-! ### The timer and the delay -/

/-- **The timer expires one tick after the delay.** In a reachable state `sₐ` let a timer be started
for `n` milliseconds, with `n` not zero, and let the current thread `t` call `OS_msDelay n` before
the next tick. At any later point, with fewer than `n` ticks since the call `t` is in
`OS_DelayedSet`, and with `n` ticks or more it is in `OS_ReadySet` until its next call of
`OS_msDelay`. The timer has expired exactly if there have been more than `n` ticks, as long as the
counter does not wrap around. -/
theorem timer_expires_after_delay (hr₀ : Run Sys.Step .init es₀ sₐ) (hr₁ : Run Sys.Step sₐ es₁ s)
    (hes₁ : Event.sysTick ∉ es₁) (hn : n ≠ 0) (hcurr : s.kernel.osCurr = some t)
    (hcall : s.Step (.delay n) s₁) (hr : Run Sys.Step s₁ es s₂)
    (hdeadline : sₐ.kernel.millisecCounter.toNat + n.toNat < 2 ^ 64)
    (hwrap : sₐ.kernel.millisecCounter.toNat + es.count .sysTick < 2 ^ 64) :
    (timerTimeout (timerStart n sₐ.kernel) s₂.kernel = true ↔ n.toNat < es.count .sysTick) ∧
    (es.count .sysTick < n.toNat → s₂.kernel.IsDelayed t) ∧
    (n.toNat ≤ es.count .sysTick → Run.EveryStep Sys.Step (fun s e => ¬s.Calls t e) s₁ es →
      s₂.kernel.IsReady t) := by
  have hₐ := Sys.inv_of_run hr₀
  have h := hₐ.run hr₁
  have h₁ := h.step hcall
  have h₂ := h₁.run hr
  obtain ⟨i, hw⟩ := h.waits_of_delay hcall hcurr
  refine ⟨timerTimeout_iff ?_ hdeadline hwrap, fun hc => ?_, fun hc hcalls => ?_⟩
  · rw [h₁.millisecCounter_run hr, h.millisecCounter_step hcall, if_neg (by simp),
      hₐ.millisecCounter_run hr₁, List.count_eq_zero_of_not_mem hes₁]
    simp
  · exact (h₁.waits_run hr hw hc).isDelayed h₂.toTable
  · have hpos : 0 < n.toNat := Nat.pos_of_ne_zero fun h0 => hn (BitVec.eq_of_toNat_eq h0)
    exact (h₁.woken_of_waits_run hr hw hpos hc hcalls).isReady h₂.toTable

/-- The timer of a delay of two ticks has expired after the third. -/
theorem timer_expires_after_delay_two : ∃ s s₁ s₂,
    Run Sys.Step .init [.start (.thread 7) 3, .run, .pendSV] s ∧
    s.kernel.osCurr = some (.thread 7) ∧ s.Step (.delay 2) s₁ ∧
    Run Sys.Step s₁ [.sysTick, .pendSV, .sysTick, .sysTick] s₂ ∧
    timerTimeout (timerStart 2 s.kernel) s₂.kernel = true := by
  have hrun : (Sys.init.run? [.start (.thread 7) 3, .run, .pendSV]).any (fun s =>
      decide (s.kernel.osCurr = some (.thread 7)) && decide (s.kernel.millisecCounter = 0) &&
        (s.step? (.delay 2)).any fun s₁ =>
          (s₁.run? [.sysTick, .pendSV, .sysTick, .sysTick]).any fun _ => true) = true := by
    decide +kernel
  obtain ⟨s, hs, h⟩ := Sys.exists_run_of_any hrun
  obtain ⟨h, hdelay⟩ := Bool.and_eq_true_iff.mp h
  obtain ⟨hcurr, hzero⟩ := Bool.and_eq_true_iff.mp h
  obtain ⟨s₁, hcall, h⟩ := Sys.exists_step_of_any hdelay
  obtain ⟨s₂, hr, -⟩ := Sys.exists_run_of_any h
  have hcounter : s.kernel.millisecCounter.toNat = 0 := congrArg _ (of_decide_eq_true hzero)
  have hcurr' := of_decide_eq_true hcurr
  refine ⟨s, s₁, s₂, hs, hcurr', hcall, hr, (timer_expires_after_delay hs (.nil s)
    List.not_mem_nil (by decide) hcurr' hcall hr ?_ ?_).1.mpr (by decide)⟩
  · rw [hcounter]
    decide
  · rw [hcounter]
    decide

/-- After a delay of one tick the thread is ready, and the timer has not expired. -/
theorem timer_not_expired_at_deadline : ∃ s s₁ s₂,
    Run Sys.Step .init [.start (.thread 7) 3, .run, .pendSV] s ∧
    s.kernel.osCurr = some (.thread 7) ∧ s.Step (.delay 1) s₁ ∧ Run Sys.Step s₁ [.sysTick] s₂ ∧
    s₂.kernel.InMask s₂.kernel.osReadySet (.thread 7) ∧
    timerTimeout (timerStart 1 s.kernel) s₂.kernel = false := by
  have hrun : (Sys.init.run? [.start (.thread 7) 3, .run, .pendSV]).any (fun s =>
      decide (s.kernel.osCurr = some (.thread 7)) && (s.step? (.delay 1)).any fun s₁ =>
        (s₁.run? [.sysTick]).any fun s₂ =>
          decide (s₂.kernel.InMask s₂.kernel.osReadySet (.thread 7)) &&
            !timerTimeout (timerStart 1 s.kernel) s₂.kernel) = true := by decide +kernel
  obtain ⟨s, hs, h⟩ := Sys.exists_run_of_any hrun
  obtain ⟨hcurr, h⟩ := Bool.and_eq_true_iff.mp h
  obtain ⟨s₁, hcall, h⟩ := Sys.exists_step_of_any h
  obtain ⟨s₂, hr, h⟩ := Sys.exists_run_of_any h
  obtain ⟨hready, htimer⟩ := Bool.and_eq_true_iff.mp h
  exact ⟨s, s₁, s₂, hs, of_decide_eq_true hcurr, hcall, hr, of_decide_eq_true hready,
    (Bool.not_eq_true' _).mp htimer⟩

end LiteRTOS
