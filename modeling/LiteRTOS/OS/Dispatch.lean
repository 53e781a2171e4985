import LiteRTOS.OS.WellFormed

/-!
# Which thread runs

`OS_Sched` compares the thread it selects with `OS_Curr` and does nothing when they are the same.
It does not withdraw an `OS_Next` that was pended before. So when the current thread has called
`OS_msDelay` and is woken as the highest ready thread before PendSV is taken, PendSV still
switches to the thread selected at the time of the delay.

The file proves that nothing else can go wrong. Between `OS_Run` and the end of a run, either
`OS_Next` is the thread that should run or the current thread is (`Kernel.Aimed`), and a switch
goes to the thread that should run exactly when the current one is not it.

## Main definitions

* `Kernel.Dispatched`: the current thread is the ready thread of the greatest priority, or the
  idle thread if there is none.
* `Kernel.CurrOnTop`: the current thread is the greatest of `OS_ReadySet`.
* `Event.IsRuntime`: the steps that take place after `OS_Run`.

## Main results

* `dispatched_iff_not_currOnTop`: the highest ready thread is dispatched throughout a run exactly
  when PendSV is never taken with the current thread on top of `OS_ReadySet`.
* `dispatch_stale`: a run in which it is taken so.
-/

namespace LiteRTOS

/-- The current thread is the registered thread of the greatest priority in `OS_ReadySet`, or it
is the idle thread, the latter exactly when `OS_ReadySet` is empty. -/
def Kernel.Dispatched (k : Kernel) : Prop :=
  (k.osReadySet = 0 ↔ k.osCurr = some .idleThread) ∧
  (k.osReadySet ≠ 0 → ∃ i t, IsGreatest (BitMask.bits k.osReadySet) i ∧
    k.entry (i + 1) = some t ∧ k.osCurr = some t)

/-- The current thread is the thread of the greatest priority in `OS_ReadySet`. -/
def Kernel.CurrOnTop (k : Kernel) : Prop :=
  ∃ i t, IsGreatest (BitMask.bits k.osReadySet) i ∧ k.entry (i + 1) = some t ∧ k.osCurr = some t

/-- After the first switch, whenever no switch is pending, the right thread runs. -/
def Sys.DispatchOk (s : Sys) : Prop :=
  s.kernel.pendSV = false → s.kernel.osCurr ≠ none → s.kernel.Dispatched

/-- The threads `ts` are started one after the other, then `OS_Run` is called. -/
def Event.boot (ts : List (TcbPtr × BitVec 8)) : List Event :=
  (ts.map fun q => .start q.1 q.2) ++ [.run]

/-- The steps of a system whose threads are all started: delays of at least one tick and the two
exceptions. -/
def Event.IsRuntime : Event → Prop
  | .delay ticks => ticks ≠ 0
  | .sysTick => True
  | .pendSV => True
  | _ => False

instance : (e : Event) → Decidable e.IsRuntime
  | .start _ _ => inferInstanceAs (Decidable False)
  | .run => inferInstanceAs (Decidable False)
  | .sysTick => inferInstanceAs (Decidable True)
  | .pendSV => inferInstanceAs (Decidable True)
  | .delay ticks => inferInstanceAs (Decidable (ticks ≠ 0))

/-- Without a pending switch the current thread is the selected one. A pending switch leads to
another thread than the current one, and one of the two is the selected one. -/
structure Kernel.Aimed (k : Kernel) : Prop where
  idle : k.pendSV = false → k.selected = k.osCurr
  next_ne : k.pendSV = true → k.osNext ≠ k.osCurr
  aim : k.pendSV = true → k.osNext = k.selected ∨ k.osCurr = k.selected

namespace Kernel

variable {k k' : Kernel}

theorem Table.dispatched_iff (hk : k.Table) : k.Dispatched ↔ k.selected = k.osCurr := by
  by_cases h : k.osReadySet = 0
  · rw [selected, if_pos h, hk.idle]
    simp only [Dispatched, h, ne_eq, not_true_eq_false, IsEmpty.forall_iff, and_true, true_iff]
    exact eq_comm
  · rw [selected, if_neg h]
    have htop := BitMask.isGreatest_top h
    constructor
    · rintro ⟨-, hsome⟩
      obtain ⟨i, t, hi, ht, hcurr⟩ := hsome h
      rw [hi.unique htop] at ht
      exact ht.trans hcurr.symm
    · intro hcurr
      obtain ⟨t, ht⟩ := hk.exists_of_ready htop.1
      rw [ht] at hcurr
      refine ⟨⟨fun h0 => absurd h0 h, fun hidle => ?_⟩, fun _ => ⟨_, t, htop, ht, hcurr.symm⟩⟩
      exact absurd (Option.some.inj (hcurr.trans hidle)) (hk.ne_idleThread ht)

theorem currOnTop_iff : k.CurrOnTop ↔
    k.osReadySet ≠ 0 ∧ k.osCurr ≠ none ∧ k.selected = k.osCurr := by
  constructor
  · rintro ⟨i, t, hi, ht, hcurr⟩
    have h : k.osReadySet ≠ 0 := BitMask.ne_zero_of_getLsbD hi.1
    refine ⟨h, by simp [hcurr], ?_⟩
    rw [selected, if_neg h, BitMask.top_eq_of_isGreatest hi, ht, hcurr]
  · rintro ⟨h, hcurr, hsel⟩
    obtain ⟨t, ht⟩ := Option.ne_none_iff_exists'.mp hcurr
    rw [selected, if_neg h, ht] at hsel
    exact ⟨_, t, BitMask.isGreatest_top h, hsel, ht⟩

instance (k : Kernel) : Decidable k.CurrOnTop := decidable_of_iff' _ currOnTop_iff

theorem Agree.aimed (h : k.Agree k') (hk : k.Aimed) : k'.Aimed where
  idle hp := by
    rw [← h.selected, ← h.osCurr]
    exact hk.idle (h.pendSV.trans hp)
  next_ne hp := by
    rw [← h.osNext, ← h.osCurr]
    exact hk.next_ne (h.pendSV.trans hp)
  aim hp := by
    rw [← h.osNext, ← h.osCurr, ← h.selected]
    exact hk.aim (h.pendSV.trans hp)

/-- `OS_Sched` aims at the selected thread, unless that is the current one. -/
theorem aimed_resched (hnext : k.pendSV = true → k.osNext ≠ k.osCurr) : k.resched.Aimed := by
  have hsel : k.resched.selected = k.selected := by simp [selected]
  by_cases h : k.selected = k.osCurr
  · refine ⟨fun _ => by rw [hsel, resched_osCurr, h], fun hp => ?_, fun _ => Or.inr ?_⟩
    · rw [resched_pendSV] at hp
      rw [resched_osNext, if_pos h, resched_osCurr]
      exact hnext (by simpa [h] using hp)
    · rw [hsel, resched_osCurr, h]
  · refine ⟨fun hp => ?_, fun _ => ?_, fun _ => Or.inl ?_⟩
    · rw [resched_pendSV] at hp
      simp [h] at hp
    · rw [resched_osNext, if_neg h, resched_osCurr]
      exact h
    · rw [resched_osNext, if_neg h, hsel]

end Kernel

variable {s s' : Sys} {e : Event}

/-- A step of the running system keeps the aim, except for a switch away from the thread that
should run. -/
theorem Sys.Inv.aimed_step (h : s.Inv) (hs : s.Step e s') (he : e.IsRuntime)
    (ha : s.kernel.Aimed) (htop : e = .pendSV → ¬s.kernel.CurrOnTop) : s'.kernel.Aimed := by
  obtain ⟨k₁, hagree, heff⟩ := h.effect hs
  refine hagree.symm.aimed ?_
  cases heff with
  | start | run => exact he.elim
  | sysTick => exact Kernel.aimed_resched ha.next_ne
  | delay hpend =>
    exact Kernel.aimed_resched fun hp => absurd (hpend.symm.trans hp) Bool.false_ne_true
  | pendSV hpend hnext hrun =>
    have hoff := Kernel.switch_pendSV (k := s.kernel)
    refine ⟨fun _ => ?_, by simp [hoff], by simp [hoff]⟩
    rcases ha.aim hpend with haim | haim
    · exact haim.symm
    -- the current thread is selected, but is not on top of a ready set: then none is ready,
    -- and both it and the target are the idle thread
    · exfalso
      have hzero : s.kernel.osReadySet = 0 := by
        by_contra hne
        obtain ⟨t', ht', -⟩ := h.exists_selected
        exact htop rfl (Kernel.currOnTop_iff.mpr ⟨hne, by simp [haim, ht'], haim.symm⟩)
      refine ha.next_ne hpend ?_
      rw [haim, Kernel.selected, if_pos hzero, h.idle, hnext]
      rcases hrun with hidle | ⟨i, hi, -⟩
      · rw [hidle]
      · exact absurd hzero (BitMask.ne_zero_of_getLsbD hi)

/-- A switch away from the thread that should run dispatches another one. -/
theorem Sys.Inv.not_dispatchOk (h : s.Inv) (hs : s.Step .pendSV s') (ha : s.kernel.Aimed)
    (htop : s.kernel.CurrOnTop) : ¬s'.DispatchOk := by
  intro hok
  obtain ⟨k₁, hagree, heff⟩ := h.effect hs
  cases heff with
  | pendSV hpend hnext hrun =>
    have hcurr : s'.kernel.osCurr = s.kernel.osNext := hagree.osCurr
    have hdisp := (h.step hs).toTable.dispatched_iff.mp
      (hok (hagree.pendSV.trans Kernel.switch_pendSV) (by simp [hcurr, hnext]))
    rw [hagree.selected, hcurr] at hdisp
    exact ha.next_ne hpend (hdisp.symm.trans (Kernel.currOnTop_iff.mp htop).2.2)

/-- `OS_Run` aims at the highest of the threads started before it. -/
theorem Sys.Inv.aimed_run (h : s.Inv) (hs : s.Step .run s') (hp : s.kernel.pendSV = false) :
    s'.kernel.Aimed := by
  obtain ⟨k₁, hagree, heff⟩ := h.effect hs
  cases heff with
  | run =>
    exact hagree.symm.aimed (Kernel.aimed_resched fun hp' =>
      absurd (hp.symm.trans hp') Bool.false_ne_true)

/-- Starting threads pends no switch. -/
theorem Sys.Inv.pendSV_starts {ts : List (TcbPtr × BitVec 8)} (h : s.Inv)
    (hr : Run Sys.Step s (ts.map fun q => .start q.1 q.2) s') :
    s'.kernel.pendSV = s.kernel.pendSV := by
  induction ts generalizing s with
  | nil => rw [Run.nil_iff.mp hr]
  | cons q ts ih =>
    obtain ⟨s₁, hs, hr⟩ := Run.cons_iff.mp hr
    obtain ⟨k₁, hagree, heff⟩ := h.effect hs
    cases heff with
    | start => exact (ih (h.step hs) hr).trans hagree.pendSV

/-- **Which runs dispatch the highest ready thread.** Let the threads `ts` be started after
`OS_Init` and then `OS_Run` be called. In a run `es` of delays, SysTick and PendSV exceptions in any
order, the thread of the greatest priority in `OS_ReadySet`, or the idle thread if there is none,
is the current one in every state without a pending switch, if and only if PendSV is never taken
in a state in which the current thread itself is the greatest of `OS_ReadySet`. -/
theorem dispatched_iff_not_currOnTop {ts : List (TcbPtr × BitVec 8)} {es : List Event}
    {s₁ s : Sys} (hboot : Run Sys.Step .init (Event.boot ts) s₁)
    (hr : Run Sys.Step s₁ es s) (hes : ∀ e ∈ es, e.IsRuntime) :
    Run.Everywhere Sys.Step Sys.DispatchOk s₁ es ↔
      Run.EveryStep Sys.Step (fun s e => e = .pendSV → ¬s.kernel.CurrOnTop) s₁ es := by
  obtain ⟨s₀, hstarts, hrun⟩ := Run.concat_iff.mp hboot
  have hinv₀ := Sys.inv_of_run hstarts
  have hpend : s₀.kernel.pendSV = false := Sys.inv_init.pendSV_starts hstarts
  refine Run.everywhere_iff_everyStep (I := fun s => s.Inv ∧ s.kernel.Aimed)
    (fun _ _ _ _ => Sys.Step.unique) ?_ ?_ ?_ hr hes ⟨hinv₀.step hrun, hinv₀.aimed_run hrun hpend⟩
  · rintro s ⟨h, ha⟩ hp -
    exact h.toTable.dispatched_iff.mpr (ha.idle hp)
  · rintro s e t he ⟨h, ha⟩ hC hs
    exact ⟨h.step hs, h.aimed_step hs he ha hC⟩
  · rintro s e t - ⟨h, ha⟩ hC hs
    obtain ⟨rfl, htop⟩ := not_forall.mp hC
    exact h.not_dispatchOk hs ha (not_not.mp htop)

/-- Two threads, of the priorities 3 and 2. -/
def twoThreads : List (TcbPtr × BitVec 8) := [(.thread 0, 3), (.thread 1, 2)]

/-- The thread of priority 3 sleeps for one tick, and the switch comes before the tick. -/
theorem dispatched_of_prompt_switch : ∃ s₁, Run Sys.Step .init (Event.boot twoThreads) s₁ ∧
    Run.Everywhere Sys.Step Sys.DispatchOk s₁
      [.pendSV, .delay 1, .pendSV, .sysTick, .pendSV] := by
  have hrun : (Sys.init.run? (Event.boot twoThreads)).any (fun s =>
      (s.run? [.pendSV, .delay 1, .pendSV, .sysTick, .pendSV]).any (fun _ => true) &&
      Run.check Sys.step? (fun s e => e != .pendSV || !decide s.kernel.CurrOnTop) s
        [.pendSV, .delay 1, .pendSV, .sysTick, .pendSV]) = true := by decide +kernel
  obtain ⟨s₁, hboot, h⟩ := Sys.exists_run_of_any hrun
  obtain ⟨hsome, hcheck⟩ := Bool.and_eq_true_iff.mp h
  obtain ⟨s, hr, -⟩ := Sys.exists_run_of_any hsome
  have hcheck := Sys.everyStep_of_check hcheck
  refine ⟨s₁, hboot, ?_⟩
  have hruntime : ∀ e ∈ [Event.pendSV, .delay 1, .pendSV, .sysTick, .pendSV], e.IsRuntime := by
    decide
  refine (dispatched_iff_not_currOnTop hboot hr hruntime).mpr fun es₁ e es₂ t hes hr he => ?_
  simpa [he] using hcheck es₁ e es₂ t hes hr

/-- The thread of priority 3 sleeps for one tick, and the tick comes before the switch, which
still goes to the thread of priority 2. -/
theorem dispatch_stale : ∃ s₁, Run Sys.Step .init (Event.boot twoThreads) s₁ ∧
    ¬Run.Everywhere Sys.Step Sys.DispatchOk s₁ [.pendSV, .delay 1, .sysTick, .pendSV] := by
  have hrun : (Sys.init.run? (Event.boot twoThreads ++
      [.pendSV, .delay 1, .sysTick, .pendSV])).any (fun s =>
      !s.kernel.pendSV && decide (s.kernel.osCurr = some (.thread 1)) &&
        decide (s.kernel.selected = some (.thread 0))) = true := by decide +kernel
  obtain ⟨s, hr, h⟩ := Sys.exists_run_of_any hrun
  simp only [Bool.and_eq_true, Bool.not_eq_true', decide_eq_true_eq] at h
  obtain ⟨⟨hpend, hcurr⟩, hsel⟩ := h
  obtain ⟨s₁, hboot, hr₁⟩ := Run.append_iff.mp hr
  refine ⟨s₁, hboot, fun hall => ?_⟩
  have hdisp := hall _ [] s (List.append_nil _).symm hr₁ hpend (by simp [hcurr])
  have hok := (Sys.inv_of_run hr).toTable.dispatched_iff.mp hdisp
  rw [hsel, hcurr] at hok
  cases hok

end LiteRTOS
