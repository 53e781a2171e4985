import LiteRTOS.OS.WellFormed

/-!
# What a step does to all variables

`Kernel.Effect` says what a step does to the variables that scheduling depends on. Here is the state
after a step with all its variables (`Kernel.Exact`), and what follows for those that scheduling
does not depend on: port C and the registers of the System Control Space. Conversely, a step does
the same to two kernels that differ only in these (`Sys.Inv.exists_agree_step`).

## Main definitions

* `Kernel.Exact`: the state after a step.

## Main results

* `Sys.Inv.exact`: a step leads to it.
* `Sys.Inv.portC_step`, `Sys.Inv.load32_step`: port C and the System Control Space.
* `Sys.Inv.exists_agree_step`: a step in agreeing states.
-/

namespace LiteRTOS

open ByteMemory Kernel

/-! ### The state after a step -/

/-- The state after a step with all its variables. -/
inductive Kernel.Exact (k : Kernel) : Event → Kernel → Prop
  | start (t : TcbPtr) (prio : BitVec 8) (i : Fin 32) :
      Exact k (.start t prio) (k.addThread t prio i)
  | run : Exact k .run (osOnStartup k).disableIrq.resched.enableIrq
  | sysTick {k₁ : Kernel} (hk₁ : k₁ = { k with
      portC := pc2On k.portC, millisecCounter := k.millisecCounter + 1 }) :
      Exact k .sysTick { (k₁.tickOn k.osDelayedSet).disableIrq.resched.enableIrq with
        portC := pc2Off (k₁.tickOn k.osDelayedSet).disableIrq.resched.portC }
  | pendSV (t : TcbPtr) :
      Exact k .pendSV { k with scs := clearPendSV k.scs, osCurr := some t, primask := false }
  | delay (t : TcbPtr) (i : ℕ) (ticks : BitVec 32) :
      Exact k (.delay ticks) (k.disableIrq.delayThread t ticks i).resched.enableIrq

variable {k k' k₁ k₁' : Kernel} {s s' r : Sys} {e : Event}

theorem osMsDelay_eq {t : TcbPtr} {i : ℕ} (ht : k.osCurr = some t)
    (hprio : (k.tcb t).prio.toNat = i + 1) (hi : i < 32) (ticks : BitVec 32) :
    osMsDelay ticks k = .ok (k.disableIrq.delayThread t ticks i).resched.enableIrq := by
  have hbit : threadBit ((k.disableIrq.setTimeOut t ticks).tcb t).prio = .ok (1#32 <<< i) :=
    threadBit_eq (by simpa [setTimeOut, disableIrq] using hprio) hi
  have hcurr : deref k.disableIrq.osCurr = .ok t := by
    rw [show k.disableIrq.osCurr = some t from ht]
    rfl
  simp only [osMsDelay, hcurr, ok_bind, hbit, osSched_eq]
  rfl

/-- A step leads to its state. -/
theorem Sys.Inv.exact (h : s.Inv) (hs : s.Step e s') : s.kernel.Exact e s'.kernel := by
  have hexec := hs.exec
  cases e with
  | start t prio =>
    obtain ⟨i, hprio, -, -⟩ := h.new_of_enabled hs.enabled
    have hk' := osThreadStart_eq (k := s.kernel) t hprio
    exact Except.ok.inj (hk'.symm.trans hexec) ▸ .start t prio i
  | run => exact Except.ok.inj ((osRun_eq s.kernel).symm.trans hexec) ▸ .run
  | sysTick =>
    obtain ⟨k₁, hk₁, hexec⟩ := bind_eq_ok.mp hexec
    obtain ⟨k₂, hk₂, hexec⟩ := bind_eq_ok.mp hexec
    have htick := osTick_eq (k := { s.kernel with portC := pc2On s.kernel.portC, millisecCounter :=
      s.kernel.millisecCounter + 1 }) h.indexed_osDelayedSet
    obtain rfl := Except.ok.inj (htick.symm.trans hk₁)
    obtain rfl := Except.ok.inj ((osSched_eq _).symm.trans hk₂)
    exact Except.ok.inj hexec ▸ .sysTick rfl
  | pendSV =>
    obtain ⟨t, ht, -⟩ := h.next hs.enabled
    exact Except.ok.inj ((pendSVHandler_eq ht).symm.trans hexec) ▸ .pendSV t
  | delay ticks =>
    obtain ⟨t, i, hcurr, ht, hi⟩ := h.ready_of_enabled hs.enabled
    have hk' := osMsDelay_eq hcurr (h.prio_eq _ t ht) (BitVec.lt_of_getLsbD hi) ticks
    exact Except.ok.inj (hk'.symm.trans hexec) ▸ .delay t i ticks

theorem Kernel.resched_portC (k : Kernel) : k.resched.portC = k.portC := by rw [resched_eq]

/-- Of the functions of the kernel only `SysTick_Handler` writes port C. -/
theorem Sys.Inv.portC_step (h : s.Inv) (hs : s.Step e s') :
    s'.kernel.portC = if e = .sysTick then pc2Off (pc2On s.kernel.portC) else s.kernel.portC := by
  have hexact := h.exact hs
  generalize s'.kernel = k' at hexact
  cases hexact with
  | start | pendSV => rfl
  | run | delay => exact resched_portC _
  | sysTick hk₁ =>
    subst hk₁
    exact congrArg pc2Off (resched_portC _)

/-- `OS_Sched` writes no register but ICSR. -/
theorem Kernel.load32_resched {a : BitVec 32} (ha : Apart scbIcsr a) (k : Kernel) :
    load32 k.resched.scs a = load32 k.scs a := by
  rw [resched]
  split_ifs
  · rfl
  · exact load32_store32_of_apart ha _

/-- The functions of the kernel write no register but ICSR and the priority of SysTick. -/
theorem Sys.Inv.load32_step (h : s.Inv) (hs : s.Step e s') {a : BitVec 32} (ha : Apart scbIcsr a)
    (hprio : 4 ≤ (nvicPriorityAddr sysTickIRQn - a).toNat) :
    load32 s'.kernel.scs a = load32 s.kernel.scs a := by
  have hexact := h.exact hs
  generalize s'.kernel = k' at hexact
  cases hexact with
  | start => rfl
  | run => exact (load32_resched ha _).trans (load32_store8_of_notMem hprio _)
  | sysTick hk₁ =>
    subst hk₁
    exact load32_resched ha _
  | pendSV => exact load32_store32_of_apart ha _
  | delay => exact load32_resched ha _

/-! ### Agreeing kernels -/

/-- The effect of a step depends only on what scheduling depends on. -/
theorem Kernel.Effect.agree (he : k.Effect e k₁) (he' : k'.Effect e k₁') (hk : k.Table)
    (h : k.Agree k') : k₁.Agree k₁' := by
  cases he with
  | @start t prio i hprio =>
    cases he' with
    | @start _ _ j hprio' =>
      obtain rfl : i = j := Fin.ext (by omega)
      exact ⟨h.osCurr, h.osNext, by simp only [addThread, h.osThread],
        by simp only [addThread, h.osReadySet], h.osDelayedSet,
        by simp only [addThread, setPrio, h.tcb], h.pendSV⟩
  | run =>
    cases he' with
    | run => exact h.resched
  | sysTick =>
    cases he' with
    | sysTick =>
      have htick : (k.tickOn k.osDelayedSet).Agree (k'.tickOn k'.osDelayedSet) := by
        rw [← h.osDelayedSet]
        exact h.tickOn _
      exact htick.resched
  | pendSV =>
    cases he' with
    | pendSV =>
      exact ⟨h.osNext, h.osNext, h.osThread, h.osReadySet, h.osDelayedSet, h.tcb,
        switch_pendSV.trans switch_pendSV.symm⟩
  | @delay t i ticks _ hcurr ht =>
    cases he' with
    | @delay t' j _ _ hcurr' ht' =>
      obtain rfl : t = t' := Option.some.inj (hcurr.symm.trans (h.osCurr.trans hcurr'))
      have hij := hk.entry_injective ht ((h.entry _).trans ht')
      obtain rfl : i = j := Nat.succ_injective hij
      refine Agree.resched ⟨h.osCurr, h.osNext, h.osThread, ?_, ?_, ?_, h.pendSV⟩
      · simp only [delayThread, h.osReadySet]
      · simp only [delayThread, h.osDelayedSet]
      · simp only [delayThread, setTimeOut, h.tcb]

/-- A step of one of two agreeing systems is one of the other. -/
theorem Sys.Inv.exists_agree_step (h : s.Inv) (hr : r.Inv) (hs : s.Step e s')
    (hagree : s.kernel.Agree r.kernel) (hstarted : s.started = r.started) :
    ∃ r', r.Step e r' ∧ s'.kernel.Agree r'.kernel ∧ s'.started = r'.started := by
  have hen : r.Enabled e := by
    have hen := hs.enabled
    cases e with
    | start t prio => exact ⟨hen.1, hen.2.1, hen.2.2.1, hstarted ▸ hen.2.2.2⟩
    | run | sysTick => trivial
    | pendSV => exact hagree.pendSV.symm.trans hen
    | delay n => exact ⟨hagree.pendSV.symm.trans hen.1, hagree.osCurr ▸ hen.2⟩
  obtain ⟨r', hr'⟩ := hr.exists_step hen
  obtain ⟨k₁, hk₁, he⟩ := h.effect hs
  obtain ⟨k₂, hk₂, he'⟩ := hr.effect hr'
  refine ⟨r', hr', (hk₁.trans (he.agree he' h.toTable hagree)).trans hk₂.symm, ?_⟩
  rw [hs.started, hr'.started, hstarted]

end LiteRTOS
