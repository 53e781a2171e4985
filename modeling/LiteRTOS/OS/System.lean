import LiteRTOS.OS.Tick
import LiteRTOS.Library.Run

/-!
# The steps of the running system

The system moves by five kinds of steps, each of them indivisible: a thread is started, `OS_Run`
is called, the SysTick exception is taken, a pending PendSV exception is taken, or the running
thread calls `OS_msDelay`. A step may take place when the program allows it (`Sys.Enabled`), and
its effect is that of the function of the source (`Event.exec`). That `OSThread_Start` is one step
is an assumption: nothing in it masks interrupts, and `LiteRTOS.OS.Atomicity` says when a tick
inside it matters.

What a step does to the kernel is said once for each kind of step, up to the variables that no
scheduling decision reads (`Kernel.Agree`).

## Main definitions

* `Event`, `Event.exec`: the steps and the functions they run.
* `Sys`, `Sys.Enabled`, `Sys.Step`: the kernel with the record of the threads started so far.
* `Sys.step?`, `Sys.run?`: steps and runs as functions.
* `Kernel.reset`, `Sys.init`: zeroed variables, and the state after `OS_Init`.
* `Kernel.Agree`: equality of the variables that scheduling depends on.

## Main results

* `osThreadStart_eq`, `osRun_agree`, `sysTickHandler_agree`, `pendSVHandler_agree`,
  `osMsDelay_agree`: the effect of each step.
-/

namespace LiteRTOS

/-! ### Steps -/

/-- An indivisible step of the system. -/
inductive Event
  /-- `OSThread_Start`, with no exception inside it, although it does not mask them. -/
  | start (t : TcbPtr) (prio : BitVec 8)
  /-- `OS_Run`. -/
  | run
  /-- The SysTick exception. -/
  | sysTick
  /-- The PendSV exception. -/
  | pendSV
  /-- `OS_msDelay`, called by the current thread. -/
  | delay (ticks : BitVec 32)
  deriving DecidableEq, Repr

/-- The function of the source that a step runs. -/
def Event.exec : Event → Kernel → Except Fault Kernel
  | .start t prio => osThreadStart t prio
  | .run => osRun
  | .sysTick => sysTickHandler
  | .pendSV => pendSVHandler
  | .delay ticks => osMsDelay ticks

/-- The kernel, and the threads started so far with their priorities. -/
structure Sys where
  kernel : Kernel
  started : List (TcbPtr × BitVec 8)

/-- When a step may take place: a thread is started with a fresh control block on an unused
priority in `1..32`, PendSV is taken when it is pending, and thread code runs only when it is
not. The idle thread does not call `OS_msDelay`. -/
def Sys.Enabled (s : Sys) : Event → Prop
  | .start t prio => t ≠ .idleThread ∧ 1 ≤ prio.toNat ∧ prio.toNat ≤ 32 ∧
      ∀ q ∈ s.started, q.1 ≠ t ∧ q.2 ≠ prio
  | .run => True
  | .sysTick => True
  | .pendSV => s.kernel.pendSV = true
  | .delay _ => s.kernel.pendSV = false ∧ s.kernel.osCurr ≠ none ∧
      s.kernel.osCurr ≠ some .idleThread

instance (s : Sys) (e : Event) : Decidable (s.Enabled e) := by
  cases e <;> unfold Sys.Enabled <;> infer_instance

/-- Threads with distinct control blocks and distinct priorities in `1..32`. -/
structure Startable (ts : List (TcbPtr × BitVec 8)) : Prop where
  ne_idleThread : ∀ q ∈ ts, q.1 ≠ .idleThread
  prio_mem : ∀ q ∈ ts, 1 ≤ q.2.toNat ∧ q.2.toNat ≤ 32
  nodup_tcb : (ts.map Prod.fst).Nodup
  nodup_prio : (ts.map Prod.snd).Nodup

/-- Such threads can be started one after the other. -/
theorem Startable.enabled {l ts : List (TcbPtr × BitVec 8)} {q : TcbPtr × BitVec 8}
    (hts : Startable (l ++ q :: ts)) (k : Kernel) : Sys.Enabled ⟨k, l⟩ (.start q.1 q.2) := by
  have hq : q ∈ l ++ q :: ts := by simp
  refine ⟨hts.ne_idleThread q hq, (hts.prio_mem q hq).1, (hts.prio_mem q hq).2, fun q' hq' => ?_⟩
  have htcb := hts.nodup_tcb
  have hprio := hts.nodup_prio
  rw [List.map_append, List.nodup_append] at htcb hprio
  exact ⟨htcb.2.2 _ (List.mem_map_of_mem hq') _ (by simp),
    hprio.2.2 _ (List.mem_map_of_mem hq') _ (by simp)⟩

/-- The threads that a step adds to the started ones. -/
def Event.starts : Event → List (TcbPtr × BitVec 8)
  | .start t prio => [(t, prio)]
  | _ => []

/-- One step of the system. -/
structure Sys.Step (s : Sys) (e : Event) (s' : Sys) : Prop where
  enabled : s.Enabled e
  exec : e.exec s.kernel = .ok s'.kernel
  started : s'.started = s.started ++ e.starts

theorem Sys.Step.unique {s s₁ s₂ : Sys} {e : Event} (h₁ : s.Step e s₁) (h₂ : s.Step e s₂) :
    s₁ = s₂ := by
  obtain ⟨k₁, l₁⟩ := s₁
  obtain ⟨k₂, l₂⟩ := s₂
  have hk : k₁ = k₂ := Except.ok.inj (h₁.exec.symm.trans h₂.exec)
  have hl : l₁ = l₂ := h₁.started.trans h₂.started.symm
  rw [hk, hl]

theorem Sys.everyStep_cons {C : Sys → Event → Prop} {s s' : Sys} {e : Event} {es : List Event}
    (h : s.Step e s') :
    Run.EveryStep Sys.Step C s (e :: es) ↔ C s e ∧ Run.EveryStep Sys.Step C s' es :=
  have hdet (s : Sys) (e : Event) (s₁ s₂ : Sys) : s.Step e s₁ → s.Step e s₂ → s₁ = s₂ :=
    Sys.Step.unique
  Run.everyStep_cons hdet h

/-- The step `e`, carried out if it may take place. -/
def Sys.step? (s : Sys) (e : Event) : Option Sys :=
  if s.Enabled e then
    (e.exec s.kernel).toOption.map fun k => ⟨k, s.started ++ e.starts⟩
  else none

/-- The steps `es`, carried out one after the other. -/
def Sys.run? : Sys → List Event → Option Sys := Run.eval Sys.step?

theorem Sys.step_of_step? {s s' : Sys} {e : Event} (h : s.step? e = some s') : s.Step e s' := by
  rw [Sys.step?] at h
  split_ifs at h with hen
  obtain ⟨k, hk, rfl⟩ := Option.map_eq_some_iff.mp h
  exact ⟨hen, toOption_eq_some.mp hk, rfl⟩

theorem Sys.run_of_run? {s s' : Sys} {es : List Event} (h : s.run? es = some s') :
    Run Sys.Step s es s' :=
  Run.of_eval (fun _ _ _ => step_of_step?) h

theorem Sys.exists_run_of_any {P : Sys → Bool} {s : Sys} {es : List Event}
    (h : (s.run? es).any P = true) : ∃ s', Run Sys.Step s es s' ∧ P s' = true :=
  Run.exists_of_any (fun _ _ _ => step_of_step?) h

theorem Sys.exists_step_of_any {P : Sys → Bool} {s : Sys} {e : Event}
    (h : (s.step? e).any P = true) : ∃ s', s.Step e s' ∧ P s' = true := by
  obtain ⟨s', hs', hP⟩ := (Option.any_eq_true _ _).mp h
  exact ⟨s', step_of_step? hs', hP⟩

theorem Sys.step?_of_step {s s' : Sys} {e : Event} (h : s.Step e s') : s.step? e = some s' := by
  rw [Sys.step?, if_pos h.enabled, h.exec, ← h.started]
  rfl

theorem Sys.everyStep_of_check {C : Sys → Event → Bool} {s : Sys} {es : List Event}
    (h : Run.check Sys.step? C s es = true) :
    Run.EveryStep Sys.Step (fun s e => C s e = true) s es :=
  Run.everyStep_of_check (fun _ _ _ => step?_of_step) h

/-- The variables before `main`: zeroed memory, PendSV not pending. -/
def Kernel.reset : Kernel where
  osCurr := none
  osNext := none
  osThread _ := none
  osReadySet := 0
  osDelayedSet := 0
  tcb _ := ⟨0, 0⟩
  millisecCounter := 0
  primask := false
  scs _ := 0
  portC := { odr := 0 }

/-- The state after `OS_Init` on zeroed variables: no thread but the idle one has been started. -/
def Sys.init : Sys := ⟨(osInit Kernel.reset).toOption.getD Kernel.reset, []⟩

theorem osInit_reset : osInit Kernel.reset = .ok Sys.init.kernel := rfl

/-! ### Agreement on what scheduling depends on -/

namespace Kernel

/-- The two states agree on all variables that the scheduling functions read. -/
structure Agree (k k' : Kernel) : Prop where
  osCurr : k.osCurr = k'.osCurr
  osNext : k.osNext = k'.osNext
  osThread : k.osThread = k'.osThread
  osReadySet : k.osReadySet = k'.osReadySet
  osDelayedSet : k.osDelayedSet = k'.osDelayedSet
  tcb : k.tcb = k'.tcb
  pendSV : k.pendSV = k'.pendSV

namespace Agree

variable {k k' k'' : Kernel}

theorem refl (k : Kernel) : k.Agree k := ⟨rfl, rfl, rfl, rfl, rfl, rfl, rfl⟩

theorem symm (h : k.Agree k') : k'.Agree k :=
  ⟨h.osCurr.symm, h.osNext.symm, h.osThread.symm, h.osReadySet.symm, h.osDelayedSet.symm,
    h.tcb.symm, h.pendSV.symm⟩

theorem trans (h : k.Agree k') (h' : k'.Agree k'') : k.Agree k'' :=
  ⟨h.osCurr.trans h'.osCurr, h.osNext.trans h'.osNext, h.osThread.trans h'.osThread,
    h.osReadySet.trans h'.osReadySet, h.osDelayedSet.trans h'.osDelayedSet, h.tcb.trans h'.tcb,
    h.pendSV.trans h'.pendSV⟩

theorem entry (h : k.Agree k') (p : ℕ) : k.entry p = k'.entry p := by
  simp only [Kernel.entry, h.osThread]

theorem selected (h : k.Agree k') : k.selected = k'.selected := by
  simp only [Kernel.selected, h.osReadySet, h.entry]

theorem resched (h : k.Agree k') : k.resched.Agree k'.resched where
  osCurr := by simp [h.osCurr]
  osNext := by simp only [resched_osNext, h.selected, h.osCurr, h.osNext]
  osThread := by simp [h.osThread]
  osReadySet := by simp [h.osReadySet]
  osDelayedSet := by simp [h.osDelayedSet]
  tcb := by simp [h.tcb]
  pendSV := by simp only [resched_pendSV, h.pendSV, h.selected, h.osCurr]

theorem expired (h : k.Agree k') (v : BitVec 32) : k.expired v = k'.expired v := by
  simp only [Kernel.expired, h.entry, h.tcb]

theorem inMask (h : k.Agree k') {v : BitVec 32} {t : TcbPtr} : k.InMask v t ↔ k'.InMask v t := by
  simp only [inMask_iff, h.entry]

theorem tickOn (h : k.Agree k') (v : BitVec 32) : (k.tickOn v).Agree (k'.tickOn v) where
  osCurr := h.osCurr
  osNext := h.osNext
  osThread := h.osThread
  osReadySet := by simp only [Kernel.tickOn, h.osReadySet, h.expired]
  osDelayedSet := by simp only [Kernel.tickOn, h.osDelayedSet, h.expired]
  tcb := by simp only [Kernel.tickOn, h.inMask, h.tcb]
  pendSV := h.pendSV

end Agree

theorem agree_disableIrq (k : Kernel) : k.disableIrq.Agree k := ⟨rfl, rfl, rfl, rfl, rfl, rfl, rfl⟩

theorem agree_enableIrq (k : Kernel) : k.enableIrq.Agree k := ⟨rfl, rfl, rfl, rfl, rfl, rfl, rfl⟩

end Kernel

/-! ### The effect of each step -/

variable {k : Kernel}

/-- The state after the registration of a thread on the priority `i + 1`. -/
def Kernel.addThread (k : Kernel) (t : TcbPtr) (prio : BitVec 8) (i : Fin 32) : Kernel :=
  { k.setPrio t prio with
    osThread := Function.update k.osThread i.succ (some t)
    osReadySet := k.osReadySet ||| 1#32 <<< i.val }

theorem osThreadStart_eq (t : TcbPtr) {prio : BitVec 8} {i : Fin 32} (h : prio.toNat = i + 1) :
    osThreadStart t prio k = .ok (k.addThread t prio i) := by
  have hlt : prio.toNat < 33 := by omega
  have hpos := prio_pos h
  have hidx : (⟨prio.toNat, hlt⟩ : Fin 33) = i.succ := Fin.ext h
  simp only [osThreadStart, hlt, hpos, ↓reduceDIte, if_true, threadBit_eq h i.isLt, ok_bind, hidx]
  rfl

theorem osRun_eq (k : Kernel) :
    osRun k = .ok (osOnStartup k).disableIrq.resched.enableIrq := by
  simp only [osRun, osSched_eq, ok_bind]
  rfl

/-- `OS_Run` schedules. -/
theorem osRun_agree (k : Kernel) : ∃ k', osRun k = .ok k' ∧ k'.Agree k.resched := by
  have hk : (osOnStartup k).Agree k :=
    ⟨rfl, rfl, rfl, rfl, rfl, rfl, pendSVSet_nvicSetPriority_sysTick 0 k.scs⟩
  exact ⟨_, osRun_eq k,
    (Kernel.agree_enableIrq _).trans ((Kernel.agree_disableIrq _).trans hk).resched⟩

/-- SysTick is one tick of the delayed threads, after which `OS_Sched` runs. -/
theorem sysTickHandler_agree (hk : k.Indexed k.osDelayedSet) :
    ∃ k', sysTickHandler k = .ok k' ∧ k'.Agree (k.tickOn k.osDelayedSet).resched ∧
      k'.millisecCounter = k.millisecCounter + 1 := by
  let k₁ : Kernel :=
    { k with portC := pc2On k.portC, millisecCounter := k.millisecCounter + 1 }
  have hk₁ : k₁.Agree k := ⟨rfl, rfl, rfl, rfl, rfl, rfl, rfl⟩
  have htick : osTick k₁ = .ok (k₁.tickOn k.osDelayedSet) := osTick_eq (k := k₁) hk
  have h := ((Kernel.agree_disableIrq _).trans (hk₁.tickOn k.osDelayedSet)).resched
  let k₂ := (k₁.tickOn k.osDelayedSet).disableIrq.resched.enableIrq
  refine ⟨{ k₂ with portC := pc2Off k₂.portC }, ?_, ?_, ?_⟩
  · change (do
      let k ← osTick k₁
      let k ← osSched k.disableIrq
      let k := k.enableIrq
      return { k with portC := pc2Off k.portC }) = _
    simp only [htick, osSched_eq, ok_bind]
    rfl
  · exact ⟨h.osCurr, h.osNext, h.osThread, h.osReadySet, h.osDelayedSet, h.tcb, h.pendSV⟩
  · change (k₁.tickOn k.osDelayedSet).disableIrq.resched.millisecCounter = _
    rw [Kernel.resched_millisecCounter]
    rfl

/-- SysTick leaves interrupts enabled. -/
theorem sysTickHandler_primask {k' : Kernel} (h : sysTickHandler k = .ok k') :
    k'.primask = false := by
  obtain ⟨k₁, -, h⟩ := bind_eq_ok.mp h
  obtain ⟨k₂, -, h⟩ := bind_eq_ok.mp h
  exact Except.ok.inj h ▸ rfl

/-- The state after the switch to `OS_Next`. -/
def Kernel.switch (k : Kernel) : Kernel :=
  { k with osCurr := k.osNext, scs := clearPendSV k.scs }

/-- PendSV makes `OS_Next` the current thread. -/
theorem pendSVHandler_agree {t : TcbPtr} (ht : k.osNext = some t) :
    ∃ k', pendSVHandler k = .ok k' ∧ k'.Agree k.switch :=
  ⟨_, pendSVHandler_eq ht, ht.symm, rfl, rfl, rfl, rfl, rfl, rfl⟩

/-- The state in which the thread `t` of priority `i + 1` has been put to sleep. -/
def Kernel.delayThread (k : Kernel) (t : TcbPtr) (ticks : BitVec 32) (i : ℕ) : Kernel :=
  { k.setTimeOut t ticks with
    osReadySet := k.osReadySet &&& ~~~(1#32 <<< i)
    osDelayedSet := k.osDelayedSet ||| 1#32 <<< i }

/-- `OS_msDelay` puts the current thread to sleep and schedules. -/
theorem osMsDelay_agree {t : TcbPtr} {i : ℕ} (ht : k.osCurr = some t)
    (hprio : (k.tcb t).prio.toNat = i + 1) (hi : i < 32) (ticks : BitVec 32) :
    ∃ k', osMsDelay ticks k = .ok k' ∧ k'.Agree (k.delayThread t ticks i).resched := by
  have hbit : threadBit ((k.disableIrq.setTimeOut t ticks).tcb t).prio = .ok (1#32 <<< i) :=
    threadBit_eq (by simpa [Kernel.setTimeOut, Kernel.disableIrq] using hprio) hi
  have hk : (k.disableIrq.delayThread t ticks i).Agree (k.delayThread t ticks i) :=
    ⟨rfl, rfl, rfl, rfl, rfl, rfl, rfl⟩
  refine ⟨(k.disableIrq.delayThread t ticks i).resched.enableIrq, ?_, ?_⟩
  · have hcurr : deref k.disableIrq.osCurr = .ok t := by
      rw [show k.disableIrq.osCurr = some t from ht]
      rfl
    simp only [osMsDelay, hcurr, ok_bind, hbit, osSched_eq]
    rfl
  · exact (Kernel.agree_enableIrq _).trans hk.resched

end LiteRTOS
