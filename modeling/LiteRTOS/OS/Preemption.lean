import LiteRTOS.OS.Delay

/-!
# Who may preempt a thread

A thread that has the processor keeps it against the threads of lower priorities until it calls
`OS_msDelay`. It is ready, so that `OS_Sched` selects it or a thread above it. If `OS_Sched` leaves
`OS_Next` as it is, since the selected thread is the running one, then `OS_Next` still has what an
earlier `OS_Sched` has put there in the meantime.

So the code of a thread between two calls of `OS_msDelay` is atomic for all threads below it,
although the kernel may, after the call, dispatch a thread that is not the highest ready one.

## Main definitions

* `Kernel.AtLeast`: a thread is not below a priority.
* `Kernel.Floor`: the processor stays with a thread or above it.

## Main results

* `Sys.Inv.floor_step`, `Sys.Inv.floor_run`: what keeps the floor.
* `preempted_from_above`: the threads that run until a thread calls `OS_msDelay`.
-/

namespace LiteRTOS

namespace Kernel

/-- The thread `t` is in the table on the bit `i` or above it. -/
def AtLeast (k : Kernel) (i : ℕ) (t : Option TcbPtr) : Prop :=
  ∃ u j, t = some u ∧ k.entry (j + 1) = some u ∧ i ≤ j

/-- The thread `t` of the bit `i` is ready, and neither the running thread nor the one that a
pending PendSV would dispatch is below it. -/
structure Floor (k : Kernel) (t : TcbPtr) (i : ℕ) : Prop extends k.Woken t i where
  curr : k.AtLeast i k.osCurr
  next : k.pendSV = true → k.AtLeast i k.osNext

variable {k k' : Kernel} {t : TcbPtr} {i : ℕ}

theorem AtLeast.mono {o : Option TcbPtr} (h : k.AtLeast i o)
    (hentry : ∀ p u, k.entry p = some u → k'.entry p = some u) : k'.AtLeast i o := by
  obtain ⟨u, j, hu, hj, hle⟩ := h
  exact ⟨u, j, hu, hentry _ _ hj, hle⟩

theorem Agree.floor (h : k.Agree k') (hf : k.Floor t i) : k'.Floor t i where
  toWoken := h.woken hf.toWoken
  curr := h.osCurr ▸ hf.curr.mono fun p _ hp => (h.entry p).symm.trans hp
  next hp := h.osNext ▸ (hf.next (h.pendSV.trans hp)).mono fun p _ hp => (h.entry p).symm.trans hp

theorem Woken.of_resched (h : k.resched.Woken t i) : k.Woken t i :=
  ⟨by simpa using h.entry, by simpa using h.ready⟩

/-- `OS_Sched` does not select a thread below a ready one. -/
theorem Woken.atLeast_selected (h : k.Woken t i) (hk : k.Table) : k.AtLeast i k.selected := by
  have hne : k.osReadySet ≠ 0 := BitMask.ne_zero_of_getLsbD h.ready
  obtain ⟨u, hu⟩ := hk.exists_of_ready (BitMask.getLsbD_top hne)
  exact ⟨u, _, by rw [selected, if_neg hne, hu], hu, BitMask.le_top_of_getLsbD h.ready⟩

/-- `OS_Sched` in a state whose pending switch does not go below `t`. -/
theorem Woken.floor_resched (h : k.Woken t i) (hk : k.Table) (hcurr : k.AtLeast i k.osCurr)
    (hnext : k.pendSV = true → k.AtLeast i k.osNext) : k.resched.Floor t i where
  toWoken := h.resched
  curr := by
    rw [resched_osCurr]
    exact hcurr.mono (by simp)
  next hp := by
    rw [resched_osNext]
    split_ifs with hsel
    · rw [resched_pendSV] at hp
      exact (hnext (by simpa [hsel] using hp)).mono (by simp)
    · exact (h.atLeast_selected hk).mono (by simp)

/-- The running thread is a floor when no switch is pending. -/
theorem WellFormed.floor (hk : k.WellFormed) (hp : k.pendSV = false) (hcurr : k.osCurr = some t)
    (ht : t ≠ .idleThread) : ∃ i, k.Floor t i := by
  rcases hk.curr hp t hcurr with hidle | ⟨i, hi, hentry⟩
  · exact absurd hidle ht
  · exact ⟨i, ⟨hentry, hi⟩, ⟨t, i, hcurr, hentry, le_rfl⟩,
      fun hp' => absurd (hp.symm.trans hp') Bool.false_ne_true⟩

/-- A step in which `t` does not call `OS_msDelay` keeps the floor. -/
theorem Floor.effect {e : Event} (h : k.Floor t i) (hk : k.Table) (he : k.Effect e k')
    (hcall : k.osCurr = some t → ∀ ticks, e ≠ .delay ticks) : k'.Floor t i := by
  have hwoken := h.toWoken.effect he hcall
  cases he with
  | start _ hunused _ =>
    exact ⟨hwoken, h.curr.mono fun _ _ => addThread_entry_of_some hunused,
      fun hp => (h.next hp).mono fun _ _ => addThread_entry_of_some hunused⟩
  | run => exact h.toWoken.floor_resched hk h.curr h.next
  | sysTick => exact hwoken.of_resched.floor_resched hk.tickOn h.curr h.next
  | pendSV hpend =>
    exact ⟨hwoken, h.next hpend, fun hp => absurd (switch_pendSV.symm.trans hp) Bool.false_ne_true⟩
  | @delay _ _ ticks hpend _ _ hj =>
    exact hwoken.of_resched.floor_resched (hk.delayThread hj ticks) h.curr
      fun hp => absurd (hpend.symm.trans hp) Bool.false_ne_true

end Kernel

open Kernel

variable {s s' : Sys} {t : TcbPtr} {i : ℕ} {e : Event} {es : List Event}

theorem Sys.Inv.floor_step (h : s.Inv) (hs : s.Step e s') (hf : s.kernel.Floor t i)
    (hcall : ¬s.Calls t e) : s'.kernel.Floor t i := by
  obtain ⟨k₁, hagree, heff⟩ := h.effect hs
  refine hagree.symm.floor (hf.effect h.toTable heff fun hcurr ticks he => hcall ?_)
  exact ⟨hcurr, ticks, he⟩

/-- The floor stays until the thread calls `OS_msDelay`. -/
theorem Sys.Inv.floor_run (h : s.Inv) (hr : Run Sys.Step s es s') (hf : s.kernel.Floor t i)
    (hcall : Run.EveryStep Sys.Step (fun s e => ¬s.Calls t e) s es) : s'.kernel.Floor t i := by
  induction hr with
  | nil => exact hf
  | cons hs hr ih =>
    obtain ⟨hhead, htail⟩ := (Sys.everyStep_cons hs).mp hcall
    exact ih (h.step hs) (h.floor_step hs hf hhead) htail

/-- **A thread is preempted from above only.** Let a thread `t` other than the idle one have the
processor in a reachable state in which no switch is pending, and let any steps follow in which `t`
does not call `OS_msDelay`. Then `t` is ready, and the running thread is `t` or one of a greater
priority, even while the switch is late. -/
theorem preempted_from_above {es₀ : List Event} (hr₀ : Run Sys.Step .init es₀ s)
    (hp : s.kernel.pendSV = false) (hcurr : s.kernel.osCurr = some t) (ht : t ≠ .idleThread)
    (hr : Run Sys.Step s es s')
    (hcalls : Run.EveryStep Sys.Step (fun s e => ¬s.Calls t e) s es) :
    s'.kernel.IsReady t ∧ ∃ u, s'.kernel.osCurr = some u ∧
      (u = t ∨ (s'.kernel.tcb t).prio < (s'.kernel.tcb u).prio) := by
  have h := Sys.inv_of_run hr₀
  have h' := h.run hr
  obtain ⟨i, hfloor⟩ := h.toWellFormed.floor hp hcurr ht
  have hf := h.floor_run hr hfloor hcalls
  obtain ⟨u, j, hu, hentry, hle⟩ := hf.curr
  refine ⟨hf.toWoken.isReady h'.toTable, u, hu, ?_⟩
  rcases hle.eq_or_lt with rfl | hlt
  · exact .inl (Option.some.inj (hentry.symm.trans hf.entry))
  · have hprio := h'.prio_eq _ _ hentry
    have hprio' := h'.prio_eq _ _ hf.entry
    exact .inr (BitVec.lt_def.mpr (by omega))

/-- The thread of priority 2 is preempted by the one of priority 3, whose delay is over. -/
theorem preempted_from_above_two : ∃ s, Run Sys.Step .init
      ([.start (.thread 0) 3, .start (.thread 1) 2, .run, .pendSV, .delay 1, .pendSV] ++
        [.sysTick, .pendSV]) s ∧
    s.kernel.osCurr = some (.thread 0) ∧ s.kernel.IsReady (.thread 1) := by
  have hrun : (Sys.init.run? [.start (.thread 0) 3, .start (.thread 1) 2, .run, .pendSV, .delay 1,
      .pendSV]).any (fun s => decide (s.kernel.pendSV = false) &&
        decide (s.kernel.osCurr = some (.thread 1)) && (s.run? [.sysTick, .pendSV]).any fun s' =>
          decide (s'.kernel.osCurr = some (.thread 0))) = true := by decide +kernel
  obtain ⟨s, hr₀, h⟩ := Sys.exists_run_of_any hrun
  obtain ⟨h, hrun'⟩ := Bool.and_eq_true_iff.mp h
  obtain ⟨hp, hcurr⟩ := Bool.and_eq_true_iff.mp h
  obtain ⟨s', hr, hcurr'⟩ := Sys.exists_run_of_any hrun'
  have hcalls : Run.EveryStep Sys.Step (fun s e => ¬s.Calls (.thread 1) e) s [.sysTick, .pendSV] :=
    .of_forall_mem fun e he _ => by
      rintro ⟨-, n, rfl⟩
      simp at he
  exact ⟨s', Run.append_iff.mpr ⟨s, hr₀, hr⟩, of_decide_eq_true hcurr', (preempted_from_above hr₀
    (of_decide_eq_true hp) (of_decide_eq_true hcurr) (by decide) hr hcalls).1⟩

end LiteRTOS
