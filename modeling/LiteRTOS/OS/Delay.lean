import LiteRTOS.OS.WellFormed

/-!
# How long `OS_msDelay` blocks

A thread that calls `OS_msDelay n` sleeps for exactly `n` ticks of SysTick, whatever happens in
between. Its counter is followed through all steps of the system: SysTick takes one off, and no
other step touches the counter or the bits of a sleeping thread. That holds also in the window in
which the thread sleeps already but is still the current one, since no thread code runs there.

The thread cannot be dispatched meanwhile because a switch leads to a thread that can run, which
is part of well-formedness.

## Main definitions

* `Kernel.IsDelayed`, `Kernel.IsReady`: the bit of a thread is in one set and not in the other.
* `Kernel.Waits`: a thread on a bit of `OS_DelayedSet` with a number of ticks to go.
* `Sys.Calls`: a step is a call of `OS_msDelay` by a given thread.

## Main results

* `Sys.Inv.waits_run`, `Sys.Inv.woken_run`: runs before and after the last tick.
* `osMsDelay_blocks`: a delay of `n` ticks blocks for `n` ticks.
-/

namespace LiteRTOS

namespace Kernel

/-- The bit of `t` is in `OS_DelayedSet` and not in `OS_ReadySet`. -/
def IsDelayed (k : Kernel) (t : TcbPtr) : Prop :=
  k.InMask k.osDelayedSet t ∧ ¬k.InMask k.osReadySet t

/-- The bit of `t` is in `OS_ReadySet` and not in `OS_DelayedSet`. -/
def IsReady (k : Kernel) (t : TcbPtr) : Prop :=
  k.InMask k.osReadySet t ∧ ¬k.InMask k.osDelayedSet t

/-- The thread `t` of the bit `i` sleeps and has `c` ticks to go. -/
structure Waits (k : Kernel) (t : TcbPtr) (i c : ℕ) : Prop where
  entry : k.entry (i + 1) = some t
  delayed : k.osDelayedSet.getLsbD i = true
  timeOut : (k.tcb t).timeOut.toNat = c

/-- The thread `t` of the bit `i` is ready. -/
structure Woken (k : Kernel) (t : TcbPtr) (i : ℕ) : Prop where
  entry : k.entry (i + 1) = some t
  ready : k.osReadySet.getLsbD i = true

variable {k k' : Kernel} {t : TcbPtr} {i c : ℕ}

theorem Table.inMask_iff (hk : k.Table) (ht : k.entry (i + 1) = some t) {v : BitVec 32} :
    k.InMask v t ↔ v.getLsbD i = true := by
  rw [LiteRTOS.Kernel.inMask_iff]
  constructor
  · rintro ⟨j, hj, htj⟩
    obtain rfl : i = j := Nat.succ_injective (hk.entry_injective ht htj)
    exact hj
  · exact fun hi => ⟨i, hi, ht⟩

theorem Waits.isDelayed (h : k.Waits t i c) (hk : k.Table) : k.IsDelayed t := by
  rw [IsDelayed, hk.inMask_iff h.entry, hk.inMask_iff h.entry]
  exact ⟨h.delayed, fun hready => hk.disjoint i ⟨hready, h.delayed⟩⟩

theorem Woken.isReady (h : k.Woken t i) (hk : k.Table) : k.IsReady t := by
  rw [IsReady, hk.inMask_iff h.entry, hk.inMask_iff h.entry]
  exact ⟨h.ready, fun hdelayed => hk.disjoint i ⟨h.ready, hdelayed⟩⟩

/-- A sleeping thread cannot run. -/
theorem Waits.not_runnable (h : k.Waits t i c) (hk : k.Table) : ¬k.Runnable t := fun hrun =>
  hk.disjoint i ⟨hk.ready_of_runnable h.entry hrun, h.delayed⟩

theorem Agree.waits (h : k.Agree k') (hk : k.Waits t i c) : k'.Waits t i c where
  entry := h.entry _ ▸ hk.entry
  delayed := h.osDelayedSet ▸ hk.delayed
  timeOut := h.tcb ▸ hk.timeOut

theorem Agree.woken (h : k.Agree k') (hk : k.Woken t i) : k'.Woken t i where
  entry := h.entry _ ▸ hk.entry
  ready := h.osReadySet ▸ hk.ready

theorem Waits.resched (h : k.Waits t i c) : k.resched.Waits t i c :=
  ⟨by simpa using h.entry, by simpa using h.delayed, by simpa using h.timeOut⟩

theorem Woken.resched (h : k.Woken t i) : k.resched.Woken t i :=
  ⟨by simpa using h.entry, by simpa using h.ready⟩

/-! ### One step -/

/-- A tick that does not bring the counter to zero. -/
theorem Waits.tickOn_of_ne {c' : ℕ} (h : k.Waits t i c)
    (hval : ((k.tcb t).timeOut - 1).toNat = c') (hc : c' ≠ 0) :
    (k.tickOn k.osDelayedSet).Waits t i c' := by
  have htime : ((k.tickOn k.osDelayedSet).tcb t).timeOut = (k.tcb t).timeOut - 1 := by
    rw [tickOn_timeOut, if_pos (inMask_iff.mpr ⟨i, h.delayed, h.entry⟩)]
  have hexp : (k.expired k.osDelayedSet).getLsbD i = false := by
    rw [← Bool.not_eq_true, getLsbD_expired_of_entry h.entry]
    rintro ⟨-, hzero⟩
    rw [hzero] at hval
    exact hc hval.symm
  refine ⟨h.entry, ?_, htime ▸ hval⟩
  change (k.osDelayedSet &&& ~~~_).getLsbD i = true
  rw [BitVec.getLsbD_and, BitVec.getLsbD_not, hexp, h.delayed]
  simp [BitVec.lt_of_getLsbD h.delayed]

/-- A tick that is not the last one. -/
theorem Waits.tickOn (h : k.Waits t i (c + 1)) (hc : c ≠ 0) :
    (k.tickOn k.osDelayedSet).Waits t i c := by
  refine h.tickOn_of_ne ?_ hc
  have := h.timeOut
  bv_omega

/-- A counter that is at zero before the tick wraps around. -/
theorem Waits.tickOn_zero (h : k.Waits t i 0) :
    (k.tickOn k.osDelayedSet).Waits t i (2 ^ 32 - 1) := by
  refine h.tickOn_of_ne ?_ (by decide)
  have := h.timeOut
  bv_omega

/-- The last tick. -/
theorem Waits.tickOn_one (h : k.Waits t i 1) : (k.tickOn k.osDelayedSet).Woken t i := by
  have hzero : (k.tcb t).timeOut - 1 = 0 := by
    have := h.timeOut
    bv_omega
  refine ⟨h.entry, ?_⟩
  change (k.osReadySet ||| _).getLsbD i = true
  rw [BitVec.getLsbD_or, (getLsbD_expired_of_entry h.entry).mpr ⟨h.delayed, hzero⟩, Bool.or_true]

/-- No step but SysTick changes what a sleeping thread waits for. -/
theorem Waits.effect {e : Event} (h : k.Waits t i c) (hk : k.WellFormed) (he : k.Effect e k')
    (htick : e ≠ .sysTick) : k'.Waits t i c := by
  cases he with
  | @start t' prio j hprio hunused hfresh =>
    have hne : t ≠ t' := fun ht => hfresh _ (ht ▸ h.entry)
    refine ⟨addThread_entry_of_some hunused h.entry, h.delayed, ?_⟩
    simpa [addThread, setPrio, hne] using h.timeOut
  | run => exact h.resched
  | sysTick => exact absurd rfl htick
  | pendSV => exact ⟨h.entry, h.delayed, h.timeOut⟩
  | @delay t' j ticks hpend hcurr ht' hj =>
    have hne : t ≠ t' := fun ht => h.not_runnable hk.toTable (hk.curr hpend t (ht ▸ hcurr))
    refine Waits.resched ⟨h.entry, ?_, ?_⟩
    · change (k.osDelayedSet ||| _).getLsbD i = true
      rw [BitVec.getLsbD_or, h.delayed, Bool.true_or]
    · simpa [delayThread, setTimeOut, hne] using h.timeOut

/-- A ready thread stays ready until it calls `OS_msDelay` itself. -/
theorem Woken.effect {e : Event} (h : k.Woken t i) (he : k.Effect e k')
    (hcall : k.osCurr = some t → ∀ ticks, e ≠ .delay ticks) : k'.Woken t i := by
  cases he with
  | @start t' prio j hprio hunused hfresh =>
    refine ⟨addThread_entry_of_some hunused h.entry, ?_⟩
    rw [addThread_getLsbD, h.ready, Bool.true_or]
  | run => exact h.resched
  | sysTick =>
    refine Woken.resched ⟨h.entry, ?_⟩
    change (k.osReadySet ||| _).getLsbD i = true
    rw [BitVec.getLsbD_or, h.ready, Bool.true_or]
  | pendSV => exact ⟨h.entry, h.ready⟩
  | @delay t' j ticks hpend hcurr ht' hj =>
    have hij : i ≠ j := by
      rintro rfl
      obtain rfl := Option.some.inj (h.entry.symm.trans ht')
      exact hcall hcurr ticks rfl
    refine Woken.resched ⟨h.entry, ?_⟩
    change (k.osReadySet &&& ~~~(1#32 <<< j)).getLsbD i = true
    rw [BitMask.getLsbD_erase (BitVec.lt_of_getLsbD hj)]
    simp [h.ready, hij]

/-- Only a thread of the table calls `OS_msDelay`. -/
theorem Effect.entry_of_delay {n : BitVec 32} (he : k.Effect (.delay n) k')
    (hcurr : k.osCurr = some t) : ∃ i, k.entry (i + 1) = some t := by
  cases he with
  | @delay t' i _ _ hcurr' ht _ =>
    obtain rfl := Option.some.inj (hcurr.symm.trans hcurr')
    exact ⟨i, ht⟩

/-- The thread that calls `OS_msDelay` sleeps from then on. -/
theorem Effect.waits_of_delay {n : BitVec 32} (he : k.Effect (.delay n) k') (hk : k.Table)
    (hcurr : k.osCurr = some t) (ht : k.entry (i + 1) = some t) : k'.Waits t i n.toNat := by
  cases he with
  | @delay t' j _ _ hcurr' ht' hj =>
    obtain rfl := Option.some.inj (hcurr.symm.trans hcurr')
    obtain rfl : i = j := Nat.succ_injective (hk.entry_injective ht ht')
    refine Waits.resched ⟨ht, ?_, by simp [delayThread, setTimeOut]⟩
    change (k.osDelayedSet ||| 1#32 <<< i).getLsbD i = true
    rw [BitMask.getLsbD_insert (BitVec.lt_of_getLsbD hj)]
    simp

end Kernel

/-! ### Runs -/

open Kernel

/-- The step `e` is a call of `OS_msDelay` by the thread `t`. -/
def Sys.Calls (s : Sys) (t : TcbPtr) (e : Event) : Prop :=
  s.kernel.osCurr = some t ∧ ∃ ticks, e = .delay ticks

variable {s s' s₁ s₂ : Sys} {e : Event} {es : List Event} {t : TcbPtr} {i c : ℕ}

/-- Steps of which none is a call of `OS_msDelay`. -/
theorem Sys.everyStep_not_calls (t : TcbPtr) (h : ∀ n, Event.delay n ∉ es) (s : Sys) :
    Run.EveryStep Sys.Step (fun s e => ¬s.Calls t e) s es := by
  refine Run.EveryStep.of_forall_mem fun e he s' => ?_
  rintro ⟨-, n, rfl⟩
  exact h n he

theorem Sys.Inv.waits_step (h : s.Inv) (hs : s.Step e s') (hw : s.kernel.Waits t i c)
    (he : e ≠ .sysTick) : s'.kernel.Waits t i c := by
  obtain ⟨k₁, hagree, heff⟩ := h.effect hs
  exact hagree.symm.waits (hw.effect h.toWellFormed heff he)

theorem Sys.Inv.waits_tick (h : s.Inv) (hs : s.Step .sysTick s')
    (hw : s.kernel.Waits t i (c + 1)) (hc : c ≠ 0) : s'.kernel.Waits t i c := by
  obtain ⟨k₁, hagree, heff⟩ := h.effect hs
  cases heff with
  | sysTick => exact hagree.symm.waits (hw.tickOn hc).resched

theorem Sys.Inv.waits_tick_zero (h : s.Inv) (hs : s.Step .sysTick s')
    (hw : s.kernel.Waits t i 0) : s'.kernel.Waits t i (2 ^ 32 - 1) := by
  obtain ⟨k₁, hagree, heff⟩ := h.effect hs
  cases heff with
  | sysTick => exact hagree.symm.waits hw.tickOn_zero.resched

theorem Sys.Inv.woken_tick (h : s.Inv) (hs : s.Step .sysTick s') (hw : s.kernel.Waits t i 1) :
    s'.kernel.Woken t i := by
  obtain ⟨k₁, hagree, heff⟩ := h.effect hs
  cases heff with
  | sysTick => exact hagree.symm.woken hw.tickOn_one.resched

theorem Sys.Inv.woken_step (h : s.Inv) (hs : s.Step e s') (hw : s.kernel.Woken t i)
    (hcall : ¬s.Calls t e) : s'.kernel.Woken t i := by
  obtain ⟨k₁, hagree, heff⟩ := h.effect hs
  refine hagree.symm.woken (hw.effect heff fun hcurr ticks he => hcall ?_)
  exact ⟨hcurr, ticks, he⟩

/-- Before its last tick a sleeping thread goes on sleeping. -/
theorem Sys.Inv.waits_run (h : s.Inv) (hr : Run Sys.Step s es s') (hw : s.kernel.Waits t i c)
    (hc : es.count .sysTick < c) : s'.kernel.Waits t i (c - es.count .sysTick) := by
  induction hr generalizing c with
  | nil => exact hw
  | @cons s s₁ s' e es hs hr ih =>
    by_cases he : e = .sysTick
    · subst he
      rw [List.count_cons_self] at hc ⊢
      obtain ⟨c, rfl⟩ := Nat.exists_eq_succ_of_ne_zero (Nat.ne_of_gt (Nat.zero_lt_of_lt hc))
      rw [Nat.succ_sub_succ]
      exact ih (h.step hs) (h.waits_tick hs hw (by omega)) (by omega)
    · rw [List.count_cons_of_ne he] at hc ⊢
      exact ih (h.step hs) (h.waits_step hs hw he) hc

/-- A ready thread that does not call `OS_msDelay` stays ready. -/
theorem Sys.Inv.woken_run (h : s.Inv) (hr : Run Sys.Step s es s') (hw : s.kernel.Woken t i)
    (hcall : Run.EveryStep Sys.Step (fun s e => ¬s.Calls t e) s es) : s'.kernel.Woken t i := by
  induction hr with
  | nil => exact hw
  | cons hs hr ih =>
    obtain ⟨hhead, htail⟩ := (Sys.everyStep_cons hs).mp hcall
    exact ih (h.step hs) (h.woken_step hs hw hhead) htail

/-- From its last tick on, a thread is ready until it sleeps again. -/
theorem Sys.Inv.woken_of_waits_run (h : s.Inv) (hr : Run Sys.Step s es s')
    (hw : s.kernel.Waits t i c) (hpos : 0 < c) (hc : c ≤ es.count .sysTick)
    (hcall : Run.EveryStep Sys.Step (fun s e => ¬s.Calls t e) s es) : s'.kernel.Woken t i := by
  induction hr generalizing c with
  | nil => exact absurd (hpos.trans_le hc) (lt_irrefl 0)
  | @cons s s₁ s' e es hs hr ih =>
    obtain ⟨-, htail⟩ := (Sys.everyStep_cons hs).mp hcall
    by_cases he : e = .sysTick
    · subst he
      rw [List.count_cons_self] at hc
      obtain ⟨c, rfl⟩ := Nat.exists_eq_succ_of_ne_zero hpos.ne'
      rcases Nat.eq_zero_or_pos c with rfl | hpos'
      · exact (h.step hs).woken_run hr (h.woken_tick hs hw) htail
      · exact ih (h.step hs) (h.waits_tick hs hw hpos'.ne') hpos' (by omega) htail
    · rw [List.count_cons_of_ne he] at hc
      exact ih (h.step hs) (h.waits_step hs hw he) hpos hc htail

/-- The thread that calls `OS_msDelay` sleeps from then on. -/
theorem Sys.Inv.waits_of_delay {n : BitVec 32} (h : s.Inv) (hcall : s.Step (.delay n) s₁)
    (hcurr : s.kernel.osCurr = some t) : ∃ i, s₁.kernel.Waits t i n.toNat := by
  obtain ⟨k₁, hagree, heff⟩ := h.effect hcall
  obtain ⟨i, ht⟩ := heff.entry_of_delay hcurr
  exact ⟨i, hagree.symm.waits (heff.waits_of_delay h.toTable hcurr ht)⟩

/-- **A delay of `n` ticks blocks for `n` ticks.** Let the current thread `t` call `OS_msDelay n`
in a reachable state, with `n` not zero, and let any steps `es` follow. As long as they contain
fewer than `n` ticks, `t` is in `OS_DelayedSet` only, its counter is at the number of ticks to
come, and PendSV does not switch to it. From the `n`-th tick on `t` is in `OS_ReadySet` only, until
it calls `OS_msDelay` again. -/
theorem osMsDelay_blocks {es₀ : List Event} {n : BitVec 32} (hr₀ : Run Sys.Step .init es₀ s)
    (hn : n ≠ 0) (hcurr : s.kernel.osCurr = some t) (hcall : s.Step (.delay n) s₁)
    (hr : Run Sys.Step s₁ es s₂) :
    (es.count .sysTick < n.toNat → s₂.kernel.IsDelayed t ∧
      (s₂.kernel.tcb t).timeOut.toNat = n.toNat - es.count .sysTick ∧
      ∀ s₃, s₂.Step .pendSV s₃ → s₃.kernel.osCurr ≠ some t) ∧
    (n.toNat ≤ es.count .sysTick → Run.EveryStep Sys.Step (fun s e => ¬s.Calls t e) s₁ es →
      s₂.kernel.IsReady t) := by
  have h := Sys.inv_of_run hr₀
  have h₁ := h.step hcall
  have h₂ := h₁.run hr
  obtain ⟨i, hw⟩ := h.waits_of_delay hcall hcurr
  constructor
  · intro hc
    have hw₂ := h₁.waits_run hr hw hc
    refine ⟨hw₂.isDelayed h₂.toTable, hw₂.timeOut, fun s₃ hs₃ hcurr₃ => ?_⟩
    obtain ⟨k₃, hagree, heff⟩ := h₂.effect hs₃
    cases heff with
    | pendSV _ hnext hrun =>
      obtain rfl := Option.some.inj (hnext.symm.trans (hagree.osCurr.symm.trans hcurr₃))
      exact hw₂.not_runnable h₂.toTable hrun
  · intro hc hcalls
    have hpos : 0 < n.toNat := Nat.pos_of_ne_zero fun h0 => hn (BitVec.eq_of_toNat_eq h0)
    exact (h₁.woken_of_waits_run hr hw hpos hc hcalls).isReady h₂.toTable

/-- A thread sleeps for two ticks, the first of which comes before the switch to the idle
thread. -/
theorem osMsDelay_blocks_two : ∃ s s₁ s₂ s₃,
    Run Sys.Step .init [.start (.thread 7) 3, .run, .pendSV] s ∧
    s.kernel.osCurr = some (.thread 7) ∧ s.Step (.delay 2) s₁ ∧
    Run Sys.Step s₁ [.sysTick, .pendSV] s₂ ∧ s₂.kernel.IsDelayed (.thread 7) ∧
    Run Sys.Step s₁ [.sysTick, .pendSV, .sysTick] s₃ ∧ s₃.kernel.IsReady (.thread 7) := by
  have hrun : (Sys.init.run? [.start (.thread 7) 3, .run, .pendSV]).any (fun s =>
      decide (s.kernel.osCurr = some (.thread 7)) && (s.step? (.delay 2)).any fun s₁ =>
        ((s₁.run? [.sysTick, .pendSV]).any fun _ => true) &&
          (s₁.run? [.sysTick, .pendSV, .sysTick]).any fun _ => true) = true := by decide +kernel
  obtain ⟨s, hs, h⟩ := Sys.exists_run_of_any hrun
  obtain ⟨hcurr, h⟩ := Bool.and_eq_true_iff.mp h
  have hcurr' := of_decide_eq_true hcurr
  obtain ⟨s₁, hcall, h⟩ := Sys.exists_step_of_any h
  obtain ⟨h₂, h₃⟩ := Bool.and_eq_true_iff.mp h
  obtain ⟨s₂, hr₂, -⟩ := Sys.exists_run_of_any h₂
  obtain ⟨s₃, hr₃, -⟩ := Sys.exists_run_of_any h₃
  have hblocked := ((osMsDelay_blocks hs (by decide) hcurr' hcall hr₂).1 (by decide)).1
  refine ⟨s, s₁, s₂, s₃, hs, hcurr', hcall, hr₂, hblocked, hr₃, ?_⟩
  refine (osMsDelay_blocks hs (by decide) hcurr' hcall hr₃).2 (by decide) ?_
  exact Sys.everyStep_not_calls _ (by simp) s₁

end LiteRTOS
