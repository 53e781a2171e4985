import LiteRTOS.OS.WellFormed
import Mathlib.Tactic.IntervalCases

/-!
# A tick in the middle of a kernel call

A thread runs a call of the kernel step by step, where the load and the store of `OS_ReadySet |= x`
are two steps, and SysTick may be taken between any two steps unless interrupts are masked. The
result is compared with the call and the tick one after the other.

`OS_msDelay` masks interrupts from its first step to its last. `OSThread_Start` does not. Its first
stores touch no variable that a tick reads, since the thread is new, so that a tick there
commutes with the rest. Between the load and the store of `OS_ReadySet` a tick adds the threads it
wakes to a set that the store then overwrites, after having taken them out of `OS_DelayedSet`.

## Main definitions

* `CallStep`, `Call.steps`: the steps of the two calls.
* `interrupted`: a call with a tick between two of its steps.
* `Kernel.obs`: the variables that are compared.
* `Call.Atomic`: the interrupted call ends as one of the two orders does.

## Main results

* `runSteps_steps`: the steps of a call make the call.
* `atomic_iff`: a call is atomic at a point unless the tick there wakes a thread and the point is
  the one between the load and the store of `OS_ReadySet` in `OSThread_Start`.
* `threadStart_lost_wakeup`: a thread that is dropped from both sets.
-/

namespace LiteRTOS

/-! ### Calls as steps -/

/-- A call of the kernel in progress: the variables, and the register into which a set has been
loaded. -/
structure InCall where
  kernel : Kernel
  word : BitVec 32

/-- A step of a kernel call. -/
inductive CallStep
  | disableIrq
  | enableIrq
  /-- `OS_Curr->TimeOut = Ticks`. -/
  | storeTimeOut (ticks : BitVec 32)
  | loadReadySet
  | loadDelayedSet
  /-- The store of `OS_ReadySet &= ~(1U << (OS_Curr->Prio - 1U))`. -/
  | storeReadySetErase
  /-- The store of `OS_DelayedSet |= 1U << (OS_Curr->Prio - 1U)`. -/
  | storeDelayedSetInsert
  /-- `OS_Sched`, which runs with interrupts masked. -/
  | sched
  /-- `OS_Thread[Prio] = TCB`. -/
  | storeThread (t : TcbPtr) (prio : BitVec 8)
  /-- `TCB->Prio = Prio`. -/
  | storePrio (t : TcbPtr) (prio : BitVec 8)
  /-- The store of `OS_ReadySet |= 1U << (Prio - 1U)`. -/
  | storeReadySetInsert (prio : BitVec 8)
  deriving DecidableEq

/-- `OS_Thread[p] = t`. -/
def Kernel.setThread (k : Kernel) (p : Fin 33) (t : TcbPtr) : Kernel :=
  { k with osThread := Function.update k.osThread p (some t) }

/-- `OS_ReadySet = v`. -/
def Kernel.setReadySet (k : Kernel) (v : BitVec 32) : Kernel := { k with osReadySet := v }

@[simp] theorem Kernel.setThread_osReadySet (k : Kernel) (p : Fin 33) (t : TcbPtr) :
    (k.setThread p t).osReadySet = k.osReadySet := rfl

@[simp] theorem Kernel.setPrio_osReadySet (k : Kernel) (t : TcbPtr) (prio : BitVec 8) :
    (k.setPrio t prio).osReadySet = k.osReadySet := rfl

/-- The effect of a step. -/
def CallStep.exec : CallStep → InCall → Except Fault InCall
  | .disableIrq, s => return { s with kernel := s.kernel.disableIrq }
  | .enableIrq, s => return { s with kernel := s.kernel.enableIrq }
  | .storeTimeOut ticks, s => do
    let curr ← deref s.kernel.osCurr
    return { s with kernel := s.kernel.setTimeOut curr ticks }
  | .loadReadySet, s => return { s with word := s.kernel.osReadySet }
  | .loadDelayedSet, s => return { s with word := s.kernel.osDelayedSet }
  | .storeReadySetErase, s => do
    let curr ← deref s.kernel.osCurr
    let bit ← threadBit (s.kernel.tcb curr).prio
    return { s with kernel := s.kernel.setReadySet (s.word &&& ~~~bit) }
  | .storeDelayedSetInsert, s => do
    let curr ← deref s.kernel.osCurr
    let bit ← threadBit (s.kernel.tcb curr).prio
    return { s with kernel := { s.kernel with osDelayedSet := s.word ||| bit } }
  | .sched, s => return { s with kernel := ← osSched s.kernel }
  | .storeThread t prio, s =>
    if h : prio.toNat < 33 then
      return { s with kernel := s.kernel.setThread ⟨prio.toNat, h⟩ t }
    else throw .tableBounds
  | .storePrio t prio, s => return { s with kernel := s.kernel.setPrio t prio }
  | .storeReadySetInsert prio, s => do
    let bit ← threadBit prio
    return { s with kernel := s.kernel.setReadySet (s.word ||| bit) }

/-- The kernel calls that a thread makes. -/
inductive Call
  | msDelay (ticks : BitVec 32)
  | threadStart (t : TcbPtr) (prio : BitVec 8)

/-- A call from its first step to its last. -/
def Call.exec : Call → Kernel → Except Fault Kernel
  | .msDelay ticks => osMsDelay ticks
  | .threadStart t prio => osThreadStart t prio

/-- The steps of `OS_msDelay` before interrupts are enabled again. -/
def maskedSteps (ticks : BitVec 32) : List CallStep :=
  [.storeTimeOut ticks, .loadReadySet, .storeReadySetErase, .loadDelayedSet,
    .storeDelayedSetInsert, .sched]

/-- The steps of a call. Those of `OSThread_Start` that write the stack of the new thread are left
out: they touch no variable of the kernel. -/
def Call.steps : Call → List CallStep
  | .msDelay ticks => .disableIrq :: (maskedSteps ticks ++ [.enableIrq])
  | .threadStart t prio =>
    [.storeThread t prio, .storePrio t prio] ++
      if prio > 0 then [.loadReadySet, .storeReadySetInsert prio] else []

/-- The steps `l`, one after the other. -/
def runSteps (l : List CallStep) (s : InCall) : Except Fault InCall :=
  l.foldlM (fun s st => st.exec s) s

/-- The call `c`, with SysTick taken after its first `j` steps. -/
def interrupted (c : Call) (j : ℕ) (k : Kernel) : Except Fault Kernel := do
  let s ← runSteps (c.steps.take j) ⟨k, 0⟩
  let k ← sysTickHandler s.kernel
  let s ← runSteps (c.steps.drop j) { s with kernel := k }
  return s.kernel

@[simp] theorem runSteps_cons (st : CallStep) (l : List CallStep) (s : InCall) :
    runSteps (st :: l) s = (do runSteps l (← st.exec s)) := List.foldlM_cons ..

@[simp] theorem runSteps_nil (s : InCall) : runSteps [] s = .ok s := rfl

/-- The steps of a call make the call, whatever the register holds at first. -/
theorem runSteps_steps (c : Call) (k : Kernel) (w : BitVec 32) :
    (do return (← runSteps c.steps ⟨k, w⟩).kernel) = c.exec k := by
  rcases c with ticks | ⟨t, prio⟩
  · simp only [Call.steps, maskedSteps, List.cons_append, List.nil_append, runSteps_cons,
      runSteps_nil, CallStep.exec, Call.exec, osMsDelay]
    rcases hcurr : k.osCurr with _ | t
    · simp [Kernel.disableIrq, hcurr, deref]
    · rcases hbit : threadBit (k.tcb t).prio with e | bit
      · simp [Kernel.disableIrq, Kernel.setTimeOut, hcurr, deref, hbit]
      · simp [Kernel.disableIrq, Kernel.setTimeOut, Kernel.setReadySet, hcurr, deref, hbit,
          osSched_eq]
  · simp only [Call.steps, Call.exec, osThreadStart]
    by_cases hlt : prio.toNat < 33
    · by_cases hpos : 0#8 < prio
      · rcases hbit : threadBit prio with e | bit <;>
          simp [runSteps_cons, runSteps_nil, CallStep.exec, hlt, hpos, hbit, Kernel.setPrio,
            Kernel.setThread, Kernel.setReadySet]
      · simp [runSteps_cons, runSteps_nil, CallStep.exec, hlt, hpos, Kernel.setPrio,
          Kernel.setThread, pure, Except.pure]
    · simp [runSteps_cons, CallStep.exec, hlt, throw, throwThe, MonadExceptOf.throw]

theorem interrupted_zero (c : Call) (k : Kernel) :
    interrupted c 0 k = (do c.exec (← sysTickHandler k)) := by
  simp only [interrupted, List.take_zero, List.drop_zero, runSteps_nil, ok_bind]
  exact bind_congr fun k' => runSteps_steps c k' 0

theorem interrupted_length (c : Call) (k : Kernel) :
    interrupted c c.steps.length k = (do sysTickHandler (← c.exec k)) := by
  rw [← runSteps_steps c k 0]
  simp only [interrupted, List.take_length, List.drop_length, runSteps_nil, ok_bind, bind_assoc,
    pure_bind, bind_pure]

/-! ### Observation -/

/-- The variables of the kernel that are compared. -/
@[ext]
structure Obs where
  osThread : Fin 33 → Option TcbPtr
  osReadySet : BitVec 32
  osDelayedSet : BitVec 32
  timeOut : TcbPtr → BitVec 32

/-- The table, the two sets and the counters. -/
def Kernel.obs (k : Kernel) : Obs :=
  ⟨k.osThread, k.osReadySet, k.osDelayedSet, fun t => (k.tcb t).timeOut⟩

/-- The call, interrupted by a tick after `j` steps, ends as the call and the tick one after the
other do, in one of the two orders. -/
def Call.Atomic (c : Call) (j : ℕ) (k : Kernel) : Prop :=
  ∃ k', interrupted c j k = .ok k' ∧
    ((∃ k₁, (do sysTickHandler (← c.exec k)) = .ok k₁ ∧ k'.obs = k₁.obs) ∨
      ∃ k₂, (do c.exec (← sysTickHandler k)) = .ok k₂ ∧ k'.obs = k₂.obs)

/-- Interrupts are not masked after the first `j` steps of the call. -/
def Call.Unmasked (c : Call) (j : ℕ) (k : Kernel) : Prop :=
  ∃ s, runSteps (c.steps.take j) ⟨k, 0⟩ = .ok s ∧ s.kernel.primask = false

/-- The running thread is in the table, and a thread that is started is new to it and takes an
unused priority in `1..32`. -/
def Call.Valid (k : Kernel) : Call → Prop
  | .msDelay _ => ∃ i t, k.osCurr = some t ∧ k.entry (i + 1) = some t
  | .threadStart t prio => 1 ≤ prio.toNat ∧ prio.toNat ≤ 32 ∧ k.entry prio.toNat = none ∧
      ∀ p, k.entry p ≠ some t

namespace Kernel

variable {k k' : Kernel}

/-- `k'` has the delayed threads of `k`, with the same priorities and counters. -/
structure SameDelayed (k k' : Kernel) : Prop where
  osDelayedSet : k'.osDelayedSet = k.osDelayedSet
  entry : ∀ i, k.osDelayedSet.getLsbD i = true → k'.entry (i + 1) = k.entry (i + 1)
  prio : ∀ p t, k.entry p = some t → (k'.tcb t).prio = (k.tcb t).prio
  timeOut : ∀ t, (k'.tcb t).timeOut = (k.tcb t).timeOut

/-- A tick does the same to the same delayed threads. -/
theorem SameDelayed.sysTick (h : k.SameDelayed k') (hk : k.Indexed k.osDelayedSet) :
    ∃ k₁, sysTickHandler k' = .ok k₁ ∧ k₁.obs = { (k.tickOn k.osDelayedSet).obs with
      osThread := k'.osThread, osReadySet := k'.osReadySet ||| k.expired k.osDelayedSet } := by
  have hidx : k'.Indexed k'.osDelayedSet := by
    rw [h.osDelayedSet]
    intro i hi
    obtain ⟨t, ht, hprio⟩ := hk i hi
    exact ⟨t, (h.entry i hi).trans ht, by rw [h.prio _ t ht, hprio]⟩
  have hexp : k'.expired k.osDelayedSet = k.expired k.osDelayedSet := by
    refine BitMask.bits_injective (Set.ext fun i => ?_)
    simp only [BitMask.mem_bits, getLsbD_expired, h.timeOut]
    exact and_congr_right fun hi => by rw [h.entry i hi]
  have hmask (t : TcbPtr) : k'.InMask k.osDelayedSet t ↔ k.InMask k.osDelayedSet t := by
    simp only [inMask_iff]
    exact exists_congr fun i => and_congr_right fun hi => by rw [h.entry i hi]
  obtain ⟨k₁, hk₁, hagree, -⟩ := sysTickHandler_agree hidx
  refine ⟨k₁, hk₁, Obs.ext ?_ ?_ ?_ ?_⟩
  · simp [obs, hagree.osThread]
  · simp [obs, hagree.osReadySet, tickOn, h.osDelayedSet, hexp]
  · simp [obs, hagree.osDelayedSet, tickOn, h.osDelayedSet, hexp]
  · funext t
    simp only [obs, hagree.tcb, resched_tcb, tickOn_timeOut, h.osDelayedSet, hmask, h.timeOut]

end Kernel

/-! ### `OS_msDelay` -/

theorem CallStep.exec_primask {st : CallStep} {s s' : InCall} (h : st.exec s = .ok s')
    (hne : st ≠ .enableIrq) (hs : s.kernel.primask = true) : s'.kernel.primask = true := by
  cases st with
  | enableIrq => exact absurd rfl hne
  | disableIrq => exact Except.ok.inj h ▸ rfl
  | loadReadySet | loadDelayedSet | storePrio _ _ => exact Except.ok.inj h ▸ hs
  | storeTimeOut ticks =>
    obtain ⟨t, -, h⟩ := bind_eq_ok.mp h
    exact Except.ok.inj h ▸ hs
  | storeReadySetErase | storeDelayedSetInsert =>
    obtain ⟨t, -, h⟩ := bind_eq_ok.mp h
    obtain ⟨bit, -, h⟩ := bind_eq_ok.mp h
    exact Except.ok.inj h ▸ hs
  | sched =>
    obtain ⟨k, hk, h⟩ := bind_eq_ok.mp h
    rw [osSched_eq] at hk
    exact Except.ok.inj h ▸ Except.ok.inj hk ▸ s.kernel.resched_primask.trans hs
  | storeThread t prio =>
    simp only [CallStep.exec] at h
    split_ifs at h
    exact Except.ok.inj h ▸ hs
  | storeReadySetInsert prio =>
    obtain ⟨bit, -, h⟩ := bind_eq_ok.mp h
    exact Except.ok.inj h ▸ hs

/-- Interrupts stay masked until they are enabled. -/
theorem runSteps_primask {l : List CallStep} {s s' : InCall} (h : runSteps l s = .ok s')
    (hl : .enableIrq ∉ l) (hs : s.kernel.primask = true) : s'.kernel.primask = true := by
  induction l generalizing s with
  | nil => exact Except.ok.inj h ▸ hs
  | cons st l ih =>
    rw [runSteps_cons] at h
    obtain ⟨s₁, hs₁, h⟩ := bind_eq_ok.mp h
    rw [List.mem_cons, not_or] at hl
    exact ih h hl.2 (CallStep.exec_primask hs₁ (Ne.symm hl.1) hs)

/-- `OS_msDelay` can be interrupted only before its first step and after its last. -/
theorem eq_of_unmasked_msDelay {ticks : BitVec 32} {j : ℕ} {k : Kernel}
    (hj : j ≤ (Call.msDelay ticks).steps.length) (h : (Call.msDelay ticks).Unmasked j k) :
    j = 0 ∨ j = (Call.msDelay ticks).steps.length := by
  obtain ⟨s, hs, hmask⟩ := h
  have hlen : (Call.msDelay ticks).steps.length = (maskedSteps ticks).length + 2 := by
    simp [Call.steps]
  rcases j with _ | j
  · exact Or.inl rfl
  refine Or.inr ?_
  by_contra hne
  have htake : (Call.msDelay ticks).steps.take (j + 1) =
      .disableIrq :: (maskedSteps ticks).take j := by
    rw [Call.steps, List.take_succ_cons, List.take_append_of_le_length (by omega)]
  rw [htake, runSteps_cons] at hs
  have hmem : .enableIrq ∉ (maskedSteps ticks).take j := fun hmem => by
    simpa [maskedSteps] using List.mem_of_mem_take hmem
  exact Bool.false_ne_true (hmask.symm.trans (runSteps_primask hs hmem rfl))

/-- Neither order of `OS_msDelay` and a tick faults. -/
theorem exists_msDelay {k : Kernel} (hk : k.Registered) {i : ℕ} {t : TcbPtr}
    (hcurr : k.osCurr = some t) (ht : k.entry (i + 1) = some t) (ticks : BitVec 32) :
    (∃ k', (do sysTickHandler (← osMsDelay ticks k)) = .ok k') ∧
      ∃ k', (do osMsDelay ticks (← sysTickHandler k)) = .ok k' := by
  have hi : i < 32 := by
    have := Kernel.lt_of_entry_eq ht
    omega
  constructor
  · obtain ⟨k₁, hk₁, hagree⟩ := osMsDelay_agree hcurr (hk.prio_eq _ t ht) hi ticks
    rw [hk₁, ok_bind]
    have hidx : k₁.Indexed k₁.osDelayedSet := by
      intro j hj
      rw [hagree.osDelayedSet, Kernel.resched_osDelayedSet] at hj
      change (k.osDelayedSet ||| 1#32 <<< i).getLsbD j = true at hj
      rw [BitMask.getLsbD_insert hi, Bool.or_eq_true, decide_eq_true_eq] at hj
      have hentry (p : ℕ) : k₁.entry p = k.entry p := by
        rw [hagree.entry, Kernel.resched_entry]
        rfl
      have hprio (s : TcbPtr) : (k₁.tcb s).prio = (k.tcb s).prio := by
        rw [hagree.tcb, Kernel.resched_tcb]
        simp only [Kernel.delayThread, Kernel.setTimeOut, Function.update_apply]
        split_ifs with h <;> simp [h]
      rcases hj with hj | rfl
      · obtain ⟨s, hs⟩ := hk.exists_of_delayed hj
        exact ⟨s, (hentry _).trans hs, by rw [hprio, hk.prio_eq _ s hs]⟩
      · exact ⟨t, (hentry _).trans ht, by rw [hprio, hk.prio_eq _ t ht]⟩
    exact (sysTickHandler_agree hidx).imp fun _ h => h.1
  · obtain ⟨k₁, hk₁, hagree, -⟩ := sysTickHandler_agree hk.indexed_osDelayedSet
    rw [hk₁, ok_bind]
    have hcurr₁ : k₁.osCurr = some t := by
      rw [hagree.osCurr, Kernel.resched_osCurr]
      exact hcurr
    have hprio₁ : (k₁.tcb t).prio.toNat = i + 1 := by
      rw [hagree.tcb, Kernel.resched_tcb, Kernel.tickOn_prio, hk.prio_eq _ t ht]
    exact (osMsDelay_agree hcurr₁ hprio₁ hi ticks).imp fun _ h => h.1

/-! ### `OSThread_Start` -/

theorem Kernel.obs_setPrio (k : Kernel) (t : TcbPtr) (prio : BitVec 8) :
    (k.setPrio t prio).obs = k.obs := by
  refine Obs.ext rfl rfl rfl ?_
  funext s
  simp only [Kernel.obs, Kernel.setPrio, Function.update_apply]
  split_ifs with hs
  · rw [hs]
  · rfl

theorem Kernel.obs_setThread (k : Kernel) (p : Fin 33) (t : TcbPtr) : (k.setThread p t).obs =
    { k.obs with osThread := Function.update k.obs.osThread p (some t) } := rfl

theorem Kernel.obs_setReadySet (k : Kernel) (v : BitVec 32) :
    (k.setReadySet v).obs = { k.obs with osReadySet := v } := rfl

section ThreadStart

variable {k : Kernel} {t : TcbPtr} {prio : BitVec 8} {i : Fin 32}

/-- Registering a new thread does not change the delayed ones. -/
theorem Kernel.Registered.sameDelayed {k' : Kernel} (hk : k.Registered)
    (hunused : k.entry (i + 1) = none) (hfresh : ∀ p, k.entry p ≠ some t)
    (hdelayed : k'.osDelayedSet = k.osDelayedSet)
    (hthread : k'.osThread = Function.update k.osThread i.succ (some t))
    (hprio : ∀ s ≠ t, (k'.tcb s).prio = (k.tcb s).prio)
    (htime : ∀ s, (k'.tcb s).timeOut = (k.tcb s).timeOut) : k.SameDelayed k' where
  osDelayedSet := hdelayed
  entry j hj := by
    have hentry : k'.entry (j + 1) = (k.addThread t 0 i).entry (j + 1) := by
      simp only [Kernel.entry, hthread, Kernel.addThread]
    obtain ⟨s, hs⟩ := hk.exists_of_delayed hj
    rw [hentry, Kernel.addThread_entry_of_some hunused hs, hs]
  prio p s hs := hprio s fun hst => hfresh p (hst ▸ hs)
  timeOut := htime

/-- What is seen after `OSThread_Start` and a tick, with the given `OS_ReadySet`. -/
def startObs (k : Kernel) (t : TcbPtr) (i : Fin 32) (readySet : BitVec 32) : Obs :=
  { (k.tickOn k.osDelayedSet).obs with
    osThread := Function.update k.osThread i.succ (some t), osReadySet := readySet }

theorem steps_threadStart (hprio : prio.toNat = i + 1) : (Call.threadStart t prio).steps =
    [.storeThread t prio, .storePrio t prio, .loadReadySet, .storeReadySetInsert prio] := by
  rw [Call.steps, if_pos (prio_pos hprio)]
  rfl

theorem length_threadStart (hprio : prio.toNat = i + 1) :
    (Call.threadStart t prio).steps.length = 4 := by
  rw [steps_threadStart hprio]
  rfl

theorem exec_storeThread (hprio : prio.toNat = i + 1) (s : InCall) :
    (CallStep.storeThread t prio).exec s =
      .ok { s with kernel := s.kernel.setThread i.succ t } := by
  have hlt : prio.toNat < 33 := by omega
  have hidx : (⟨prio.toNat, hlt⟩ : Fin 33) = i.succ := Fin.ext hprio
  rw [CallStep.exec, dif_pos hlt, hidx]
  rfl

@[simp] theorem exec_storePrio (s : InCall) :
    (CallStep.storePrio t prio).exec s = .ok { s with kernel := s.kernel.setPrio t prio } := rfl

@[simp] theorem exec_loadReadySet (s : InCall) :
    CallStep.loadReadySet.exec s = .ok { s with word := s.kernel.osReadySet } := rfl

theorem exec_storeReadySetInsert (hprio : prio.toNat = i + 1) (s : InCall) :
    (CallStep.storeReadySetInsert prio).exec s =
      .ok { s with kernel := s.kernel.setReadySet (s.word ||| 1#32 <<< i.val) } := by
  rw [CallStep.exec, threadBit_eq hprio i.isLt]
  rfl

/-- `OSThread_Start` with a tick after `j` steps: the bits of the woken threads are lost from
`OS_ReadySet` when the tick comes after its load and before its store. -/
theorem exists_interrupted_start (hk : k.Registered) (hprio : prio.toNat = i + 1)
    (hunused : k.entry (i + 1) = none) (hfresh : ∀ p, k.entry p ≠ some t) {j : ℕ} (hj : j ≤ 4) :
    ∃ k', interrupted (.threadStart t prio) j k = .ok k' ∧ k'.obs = startObs k t i
      ((if j = 3 then k.osReadySet else k.osReadySet ||| k.expired k.osDelayedSet) |||
        1#32 <<< i.val) := by
  have hidx := hk.indexed_osDelayedSet
  have hsteps := steps_threadStart (t := t) hprio
  have htime (k : Kernel) (s : TcbPtr) : ((k.setPrio t prio).tcb s).timeOut = (k.tcb s).timeOut :=
    congrFun (congrArg Obs.timeOut (k.obs_setPrio t prio)) s
  have hprio' (k : Kernel) (s : TcbPtr) (hs : s ≠ t) :
      ((k.setPrio t prio).tcb s).prio = (k.tcb s).prio := by
    simp [Kernel.setPrio, hs]
  have hsame₀ : k.SameDelayed k := ⟨rfl, fun _ _ => rfl, fun _ _ _ => rfl, fun _ => rfl⟩
  have hsame₁ : k.SameDelayed (k.setThread i.succ t) :=
    hk.sameDelayed hunused hfresh rfl rfl (fun _ _ => rfl) fun _ => rfl
  have hsame₂ : k.SameDelayed ((k.setThread i.succ t).setPrio t prio) :=
    hk.sameDelayed hunused hfresh rfl rfl (hprio' _) (htime _)
  have hsame₄ : k.SameDelayed (((k.setThread i.succ t).setPrio t prio).setReadySet
      (k.osReadySet ||| 1#32 <<< i.val)) :=
    hk.sameDelayed hunused hfresh rfl rfl (hprio' _) (htime _)
  interval_cases j
  · -- before the first step
    obtain ⟨k', hk', hobs⟩ := hsame₀.sysTick hidx
    have hready : k'.osReadySet = _ := congrArg Obs.osReadySet hobs
    refine ⟨((k'.setThread i.succ t).setPrio t prio).setReadySet (k'.osReadySet ||| 1#32 <<< i.val),
      ?_, ?_⟩
    · simp [interrupted, hsteps, exec_storeThread hprio, exec_storeReadySetInsert hprio, hk']
    · rw [Kernel.obs_setReadySet, Kernel.obs_setPrio, Kernel.obs_setThread, hobs, hready]
      rfl
  · -- between the stores of the table entry and of the priority
    obtain ⟨k', hk', hobs⟩ := hsame₁.sysTick hidx
    have hready : k'.osReadySet = _ := congrArg Obs.osReadySet hobs
    refine ⟨(k'.setPrio t prio).setReadySet (k'.osReadySet ||| 1#32 <<< i.val), ?_, ?_⟩
    · simp [interrupted, hsteps, exec_storeThread hprio, exec_storeReadySetInsert hprio, hk']
    · rw [Kernel.obs_setReadySet, Kernel.obs_setPrio, hobs, hready]
      rfl
  · -- before the load of `OS_ReadySet`
    obtain ⟨k', hk', hobs⟩ := hsame₂.sysTick hidx
    have hready : k'.osReadySet = _ := congrArg Obs.osReadySet hobs
    refine ⟨k'.setReadySet (k'.osReadySet ||| 1#32 <<< i.val), ?_, ?_⟩
    · simp [interrupted, hsteps, exec_storeThread hprio, exec_storeReadySetInsert hprio, hk']
    · rw [Kernel.obs_setReadySet, hobs, hready]
      rfl
  · -- between the load and the store of `OS_ReadySet`: the loaded set is stored with the new bit
    obtain ⟨k', hk', hobs⟩ := hsame₂.sysTick hidx
    refine ⟨k'.setReadySet (k.osReadySet ||| 1#32 <<< i.val), ?_, ?_⟩
    · simp [interrupted, hsteps, exec_storeThread hprio, exec_storeReadySetInsert hprio, hk']
    · rw [Kernel.obs_setReadySet, hobs]
      rfl
  · -- after the last step
    obtain ⟨k', hk', hobs⟩ := hsame₄.sysTick hidx
    refine ⟨k', ?_, ?_⟩
    · simp [interrupted, hsteps, exec_storeThread hprio, exec_storeReadySetInsert hprio, hk']
    · rw [hobs]
      refine Obs.ext rfl ?_ rfl rfl
      change k.osReadySet ||| 1#32 <<< i.val ||| _ = _
      rw [if_neg (by decide), BitVec.or_assoc, BitVec.or_comm (1#32 <<< _), ← BitVec.or_assoc]
      rfl

end ThreadStart

/-! ### When a call is atomic -/

namespace Kernel

variable {k : Kernel}

/-- The next tick wakes a thread. -/
def WakesNext (k : Kernel) : Prop :=
  ∃ i t, k.osDelayedSet.getLsbD i = true ∧ k.entry (i + 1) = some t ∧ (k.tcb t).timeOut = 1

theorem wakesNext_iff : k.WakesNext ↔ ∃ i, (k.expired k.osDelayedSet).getLsbD i = true := by
  have hone (x : BitVec 32) : x = 1 ↔ x - 1 = 0 := by
    constructor <;> intro h <;> bv_omega
  simp only [WakesNext, getLsbD_expired, hone, exists_and_left]

/-- The store of the loaded set drops a thread that the tick has woken. -/
theorem Registered.readySet_ne (hk : k.Registered) {i : Fin 32} (hunused : k.entry (i + 1) = none)
    (hwakes : k.WakesNext) : k.osReadySet ||| 1#32 <<< i.val ≠
      k.osReadySet ||| k.expired k.osDelayedSet ||| 1#32 <<< i.val := by
  obtain ⟨j, hj⟩ := wakesNext_iff.mp hwakes
  have hdelayed := (getLsbD_expired.mp hj).1
  have hready : k.osReadySet.getLsbD j = false :=
    Bool.eq_false_iff.mpr fun h => hk.disjoint j ⟨h, hdelayed⟩
  have hji : j ≠ i := by
    rintro rfl
    obtain ⟨s, hs⟩ := hk.exists_of_delayed hdelayed
    exact ne_of_entry hunused hs rfl
  intro h
  have hbit := congrArg (·.getLsbD j) h
  simp [BitVec.getLsbD_or, hj, hready, BitMask.getLsbD_one_shiftLeft i.isLt, hji] at hbit

theorem readySet_eq (hwakes : ¬k.WakesNext) : k.osReadySet ||| k.expired k.osDelayedSet =
    k.osReadySet := by
  have hexp : k.expired k.osDelayedSet = 0#32 := by
    refine BitMask.eq_zero_iff.mpr fun i => Bool.eq_false_iff.mpr fun hi => hwakes ?_
    exact wakesNext_iff.mpr ⟨i, hi⟩
  rw [hexp, BitVec.or_zero]

end Kernel

variable {c : Call} {j : ℕ} {k : Kernel}

/-- A tick between the load and the store of `OS_ReadySet` that wakes a thread. -/
theorem not_atomic_start {t : TcbPtr} {prio : BitVec 8} {i : Fin 32} (hk : k.Registered)
    (hprio : prio.toNat = i + 1) (hunused : k.entry (i + 1) = none)
    (hfresh : ∀ p, k.entry p ≠ some t) (hwakes : k.WakesNext) :
    ¬(Call.threadStart t prio).Atomic 3 k := by
  obtain ⟨k', hk', hobs⟩ := exists_interrupted_start hk hprio hunused hfresh (j := 3) (by omega)
  obtain ⟨k₁, hk₁, hobs₁⟩ := exists_interrupted_start hk hprio hunused hfresh (j := 4) (by omega)
  obtain ⟨k₂, hk₂, hobs₂⟩ := exists_interrupted_start hk hprio hunused hfresh (j := 0) (by omega)
  rw [← length_threadStart (t := t) hprio, interrupted_length] at hk₁
  rw [interrupted_zero] at hk₂
  have hne := hk.readySet_ne hunused hwakes
  rintro ⟨k'', hk'', ⟨k₁', hk₁', h⟩ | ⟨k₂', hk₂', h⟩⟩
  all_goals obtain rfl := Except.ok.inj (hk'.symm.trans hk'')
  · obtain rfl := Except.ok.inj (hk₁.symm.trans hk₁')
    rw [hobs, hobs₁] at h
    exact hne (congrArg Obs.osReadySet h)
  · obtain rfl := Except.ok.inj (hk₂.symm.trans hk₂')
    rw [hobs, hobs₂] at h
    exact hne (congrArg Obs.osReadySet h)

/-- Everywhere else the tick might as well come first. -/
theorem atomic_start {t : TcbPtr} {prio : BitVec 8} {i : Fin 32} (hk : k.Registered)
    (hprio : prio.toNat = i + 1) (hunused : k.entry (i + 1) = none)
    (hfresh : ∀ p, k.entry p ≠ some t) (hj : j ≤ 4) (h : ¬(j = 3 ∧ k.WakesNext)) :
    (Call.threadStart t prio).Atomic j k := by
  obtain ⟨k', hk', hobs⟩ := exists_interrupted_start hk hprio hunused hfresh hj
  obtain ⟨k₂, hk₂, hobs₂⟩ := exists_interrupted_start hk hprio hunused hfresh (j := 0) (by omega)
  rw [interrupted_zero] at hk₂
  refine ⟨k', hk', Or.inr ⟨k₂, hk₂, ?_⟩⟩
  rw [hobs, hobs₂, if_neg (by omega : ¬0 = 3)]
  by_cases hj3 : j = 3
  · rw [if_pos hj3, Kernel.readySet_eq fun hwakes => h ⟨hj3, hwakes⟩]
  · rw [if_neg hj3]

/-- **When a kernel call is atomic with respect to the tick.** Let a call that is valid in the
state `k`, whose threads are in order, be interrupted by SysTick after `j` of its steps, at a point
at which interrupts are not masked. The result is that of the call and the tick one after the
other, in one of the two orders, if and only if it is not the case that the next step is the
store of `OS_ReadySet` in `OSThread_Start` and that the counter of a delayed thread is at one. -/
theorem atomic_iff (hk : k.Registered) (hc : c.Valid k) (hj : j ≤ c.steps.length)
    (hmask : c.Unmasked j k) : c.Atomic j k ↔
      ¬((∃ prio, c.steps.drop j = [.storeReadySetInsert prio]) ∧ k.WakesNext) := by
  rcases c with ticks | ⟨t, prio⟩
  · obtain ⟨i, t, hcurr, ht⟩ := hc
    have hno : ¬∃ prio, (Call.msDelay ticks).steps.drop j = [.storeReadySetInsert prio] := by
      rintro ⟨prio, hdrop⟩
      have hmem : CallStep.storeReadySetInsert prio ∈ (Call.msDelay ticks).steps.drop j := by
        rw [hdrop]
        exact List.mem_singleton_self _
      simpa [Call.steps, maskedSteps] using List.mem_of_mem_drop hmem
    refine iff_of_true ?_ fun h => hno h.1
    obtain ⟨⟨k₁, hk₁⟩, k₂, hk₂⟩ := exists_msDelay hk hcurr ht ticks
    rcases eq_of_unmasked_msDelay hj hmask with rfl | rfl
    · exact ⟨k₂, (interrupted_zero _ _).trans hk₂, Or.inr ⟨k₂, hk₂, rfl⟩⟩
    · exact ⟨k₁, (interrupted_length _ _).trans hk₁, Or.inl ⟨k₁, hk₁, rfl⟩⟩
  · obtain ⟨hpos, hle, hunused, hfresh⟩ := hc
    obtain ⟨i, hprio⟩ := exists_prio_eq hpos hle
    rw [hprio] at hunused
    rw [length_threadStart hprio] at hj
    have hwindow : (∃ p, (Call.threadStart t prio).steps.drop j = [.storeReadySetInsert p]) ↔
        j = 3 := by
      rw [steps_threadStart hprio]
      interval_cases j <;> simp
    rw [hwindow]
    constructor
    · rintro hatomic ⟨rfl, hwakes⟩
      exact not_atomic_start hk hprio hunused hfresh hwakes hatomic
    · exact atomic_start hk hprio hunused hfresh hj

theorem Sys.Inv.valid_start {s : Sys} {t : TcbPtr} {prio : BitVec 8} (h : s.Inv)
    (hen : s.Enabled (.start t prio)) : (Call.threadStart t prio).Valid s.kernel := by
  obtain ⟨i, hprio, hunused, hfresh⟩ := h.new_of_enabled hen
  exact ⟨hen.2.1, hen.2.2.1, hprio ▸ hunused, hfresh⟩

/-- The check of `Call.Unmasked`. -/
def Call.isUnmasked (c : Call) (j : ℕ) (k : Kernel) : Bool :=
  (runSteps (c.steps.take j) ⟨k, 0⟩).toOption.any fun s => !s.kernel.primask

theorem Call.unmasked_of_isUnmasked {c : Call} {j : ℕ} {k : Kernel} (h : c.isUnmasked j k = true) :
    c.Unmasked j k := by
  obtain ⟨s, hs, hmask⟩ := (Option.any_eq_true _ _).mp h
  exact ⟨s, toOption_eq_some.mp hs, by simpa using hmask⟩

/-- While no thread is delayed a tick in the window of `OSThread_Start` does no harm. -/
theorem atomic_without_delayed : ∃ s,
    Run Sys.Step .init [.start (.thread 0) 3, .run, .pendSV] s ∧
      (Call.threadStart (.thread 2) 5).Atomic 3 s.kernel := by
  have hrun : (Sys.init.run? [.start (.thread 0) 3, .run, .pendSV]).any (fun s =>
      decide (s.Enabled (.start (.thread 2) 5)) &&
        (Call.threadStart (.thread 2) 5).isUnmasked 3 s.kernel &&
        decide (s.kernel.osDelayedSet = 0)) = true := by decide +kernel
  obtain ⟨s, hr, h⟩ := Sys.exists_run_of_any hrun
  simp only [Bool.and_eq_true, decide_eq_true_eq] at h
  obtain ⟨⟨hen, hmask⟩, hzero⟩ := h
  have hinv := Sys.inv_of_run hr
  refine ⟨s, hr, (atomic_iff hinv.toRegistered (hinv.valid_start hen) (by decide)
    (Call.unmasked_of_isUnmasked hmask)).mpr ?_⟩
  rintro ⟨-, i, -, hi, -⟩
  exact BitMask.ne_zero_of_getLsbD hi hzero

/-- The thread of priority 2 waits for one more tick when the thread of priority 3 starts a third
one. The tick comes between the load and the store of `OS_ReadySet`. It does not pend PendSV, as
the thread that runs is above the one it wakes, and so the store is the next step. The result is
that of no order: the thread of priority 2 is in neither set. -/
theorem threadStart_lost_wakeup : ∃ s, Run Sys.Step .init
      [.start (.thread 0) 3, .start (.thread 1) 2, .run, .pendSV, .delay 1, .pendSV, .delay 2,
        .pendSV, .sysTick, .pendSV] s ∧
    s.kernel.osCurr = some (.thread 0) ∧
    s.kernel.entry 2 = some (.thread 1) ∧ s.kernel.osDelayedSet.getLsbD 1 = true ∧
    (Call.threadStart (.thread 2) 5).Valid s.kernel ∧
    (Call.threadStart (.thread 2) 5).Unmasked 3 s.kernel ∧
    ¬(Call.threadStart (.thread 2) 5).Atomic 3 s.kernel ∧
    (interrupted (.threadStart (.thread 2) 5) 3 s.kernel).toOption.any (fun k =>
      !k.osReadySet.getLsbD 1 && !k.osDelayedSet.getLsbD 1 && !k.pendSV) = true := by
  have hrun : (Sys.init.run? [.start (.thread 0) 3, .start (.thread 1) 2, .run, .pendSV, .delay 1,
      .pendSV, .delay 2, .pendSV, .sysTick, .pendSV]).any (fun s =>
        decide (s.Enabled (.start (.thread 2) 5)) &&
        decide (s.kernel.osCurr = some (.thread 0)) &&
        (Call.threadStart (.thread 2) 5).isUnmasked 3 s.kernel &&
        (s.kernel.osDelayedSet.getLsbD 1 && decide (s.kernel.entry 2 = some (.thread 1)) &&
          decide ((s.kernel.tcb (.thread 1)).timeOut = 1)) &&
        (interrupted (.threadStart (.thread 2) 5) 3 s.kernel).toOption.any fun k =>
          !k.osReadySet.getLsbD 1 && !k.osDelayedSet.getLsbD 1 && !k.pendSV) = true := by
    decide +kernel
  obtain ⟨s, hr, h⟩ := Sys.exists_run_of_any hrun
  obtain ⟨h, hlost⟩ := Bool.and_eq_true_iff.mp h
  simp only [Bool.and_eq_true, decide_eq_true_eq] at h
  obtain ⟨⟨⟨hen, hcurr⟩, hmask⟩, ⟨hdelayed, hentry⟩, htime⟩ := h
  have hinv := Sys.inv_of_run hr
  obtain ⟨i, hprio, hunused, hfresh⟩ := hinv.new_of_enabled hen
  exact ⟨s, hr, hcurr, hentry, hdelayed, hinv.valid_start hen, Call.unmasked_of_isUnmasked hmask,
    not_atomic_start hinv.toRegistered hprio hunused hfresh ⟨1, _, hdelayed, hentry, htime⟩, hlost⟩

end LiteRTOS
