import LiteRTOS.OS.WellFormed

/-!
# The start-up in `main`

`main` enables the SysTick interrupt first and sets up the kernel afterwards. Exceptions may be
taken between any two of its steps, unless `OS_Run` has masked interrupts. While `OS_Curr` is null
PendSV saves nothing, so that a switch abandons the rest of `main`.

A tick before `OS_Init` finds no thread, not even an idle one, and does nothing. From `OS_Init` on
the thread that `OS_Sched` selects differs from `OS_Curr`, and a tick makes a switch pending. The
run is followed through the phases of the start-up (`Boot.Phase`).

## Main definitions

* `MainStep`, `mainSteps`: the steps of `main`.
* `Boot`, `BootEvent`, `Boot.Step`: the steps of `main` with exceptions in between.
* `Boot.SetUp`: all threads are registered and `OS_Sched` has run.
* `Boot.TickWindow`: between `OS_Init` and the point at which `OS_Run` masks interrupts.

## Main results

* `switch_after_setUp_iff`: a switch is possible only after the set-up if and only if no tick comes
  in the window.
* `setUp_of_pendSV`: the set-up is over at every switch that is taken.
* `switch_abandons_main`: a run with a tick in the window.
-/

namespace LiteRTOS

/-! ### `main` -/

/-- The steps of `main` from `SysTick_Init` on, with those of `OS_Run`. -/
inductive MainStep
  | sysTickInit
  | gpioInit
  | osInit
  | threadStart (t : TcbPtr) (prio : BitVec 8)
  | onStartup
  | disableIrq
  | sched
  | enableIrq
  deriving DecidableEq

/-- The effect of a step. `GPIO_Init` writes the clock enable and mode registers of the ports, which
are no part of the state: nothing here reads them. -/
def MainStep.exec : MainStep → Kernel → Except Fault Kernel
  | .sysTickInit, k => return { k with scs := LiteRTOS.sysTickInit k.scs }
  | .gpioInit, k => return k
  | .osInit, k => LiteRTOS.osInit k
  | .threadStart t prio, k => osThreadStart t prio k
  | .onStartup, k => return osOnStartup k
  | .disableIrq, k => return k.disableIrq
  | .sched, k => osSched k
  | .enableIrq, k => return k.enableIrq

/-- The steps of `OS_Run`. -/
def runMainSteps : List MainStep := [.onStartup, .disableIrq, .sched, .enableIrq]

/-- The steps from the first `OSThread_Start` on. -/
def startMainSteps (ts : List (TcbPtr × BitVec 8)) : List MainStep :=
  (ts.map fun q => .threadStart q.1 q.2) ++ runMainSteps

/-- The steps of a `main` that starts the threads `ts`. -/
def mainSteps (ts : List (TcbPtr × BitVec 8)) : List MainStep :=
  [.sysTickInit, .gpioInit] ++ .osInit :: startMainSteps ts

/-- The system during start-up: the kernel, the steps `main` has still to do, and whether a switch
has abandoned them. -/
structure Boot where
  kernel : Kernel
  rest : List MainStep
  abandoned : Bool

/-- The next step of `main`, or an exception. -/
inductive BootEvent
  | main
  | sysTick
  | pendSV
  deriving DecidableEq

/-- Exceptions are taken when they are pending and interrupts are not masked. SysTick may be
pending at any time once its counter and its interrupt are enabled. -/
def Boot.Enabled (b : Boot) : BootEvent → Prop
  | .main => b.abandoned = false ∧ b.rest ≠ []
  | .sysTick => sysTickEnabled b.kernel.scs = true ∧ b.kernel.primask = false
  | .pendSV => b.kernel.pendSV = true ∧ b.kernel.primask = false

instance (b : Boot) (e : BootEvent) : Decidable (b.Enabled e) := by
  cases e <;> unfold Boot.Enabled <;> infer_instance

/-- The effect of an event. -/
def Boot.exec (b : Boot) : BootEvent → Except Fault Boot
  | .main =>
    match b.rest with
    | [] => return b
    | st :: rest => return { b with kernel := ← st.exec b.kernel, rest := rest }
  | .sysTick => return { b with kernel := ← sysTickHandler b.kernel }
  | .pendSV => return { b with kernel := ← pendSVHandler b.kernel, abandoned := true }

/-- One event of the start-up. -/
abbrev Boot.Step : Boot → BootEvent → Boot → Prop := Run.Guarded Boot.Enabled Boot.exec

/-- The event `e`, carried out if it may take place. -/
abbrev Boot.step? : Boot → BootEvent → Option Boot := Run.Guarded.step? Boot.Enabled Boot.exec

/-- The state in which `main` begins. -/
def Boot.init (ts : List (TcbPtr × BitVec 8)) : Boot := ⟨Kernel.reset, mainSteps ts, false⟩

namespace Boot

/-- All threads of the list have been started and are registered, and `OS_Sched` has been
called. -/
structure SetUp (ts : List (TcbPtr × BitVec 8)) (b : Boot) : Prop where
  noStart : ∀ t prio, .threadStart t prio ∉ b.rest
  noSched : .sched ∉ b.rest
  registered : ∀ q ∈ ts, b.kernel.entry q.2.toNat = some q.1

/-- `OS_Init` has been called, and `OS_Run` has not masked interrupts yet. -/
def TickWindow (b : Boot) : Prop := .osInit ∉ b.rest ∧ .disableIrq ∈ b.rest

instance (b : Boot) : Decidable b.TickWindow := inferInstanceAs (Decidable (_ ∧ _))

/-! ### The phases of the start-up -/

/-- What holds of the kernel in the phases of the start-up, as long as no tick comes in the
window. -/
inductive Phase (ts : List (TcbPtr × BitVec 8)) : Kernel → List MainStep → Prop
  | hardware {k : Kernel} {l : List MainStep} (hl : l <:+ [.sysTickInit, .gpioInit])
      (hk : k.Agree Kernel.reset) (hmask : k.primask = false) :
      Phase ts k (l ++ .osInit :: startMainSteps ts)
  | starting {k : Kernel} {l todo : List (TcbPtr × BitVec 8)} (hl : l ++ todo = ts)
      (hk : Sys.Inv ⟨k, l⟩) (hcurr : k.osCurr = none) (hoff : k.pendSV = false)
      (hmask : k.primask = false) : Phase ts k (startMainSteps todo)
  | started {k : Kernel} (hk : Sys.Inv ⟨k, ts⟩) (hcurr : k.osCurr = none) (hoff : k.pendSV = false)
      (hmask : k.primask = false) : Phase ts k [.disableIrq, .sched, .enableIrq]
  | masked {k : Kernel} (hk : Sys.Inv ⟨k, ts⟩) (hmask : k.primask = true) :
      Phase ts k [.sched, .enableIrq]
  | scheduled {k : Kernel} (hk : Sys.Inv ⟨k, ts⟩) (hmask : k.primask = true) :
      Phase ts k [.enableIrq]
  | done {k : Kernel} (hk : Sys.Inv ⟨k, ts⟩) : Phase ts k []

variable {ts : List (TcbPtr × BitVec 8)} {k k' : Kernel} {l : List MainStep} {st : MainStep}

/-- `OS_Init` on variables that nothing has changed. -/
theorem inv_osInit (hk : k.Agree Kernel.reset) (h : osInit k = .ok k') :
    Sys.Inv ⟨k', []⟩ ∧ k'.osCurr = none ∧ k'.pendSV = false ∧ k'.primask = k.primask := by
  obtain rfl := Except.ok.inj h
  have hpend : pendSVSet (k.scs.store32 nvicSysPri3R
      (k.scs.load32 nvicSysPri3R ||| 0xFF#32 <<< 16)) = pendSVSet k.scs :=
    pendSVSet_store32 (by decide) _ _
  have hoff : pendSVSet k.scs = false := hk.pendSV
  refine ⟨Sys.inv_init.of_agree ⟨hk.osCurr, hk.osNext, ?_, hk.osReadySet, hk.osDelayedSet, ?_, ?_⟩,
    hk.osCurr, hpend.trans hoff, rfl⟩
  · change Function.update k.osThread _ _ = _
    rw [hk.osThread]
    rfl
  · change Function.update k.tcb _ { k.tcb _ with prio := 0 } = _
    rw [hk.tcb]
    rfl
  · exact hpend.trans hoff

/-- A step of `main`. -/
theorem Phase.main (hts : Startable ts) (hp : Phase ts k (st :: l)) (h : st.exec k = .ok k') :
    Phase ts k' l := by
  generalize hsteps : st :: l = steps at hp
  cases hp with
  | @hardware pre hpre hk hmask =>
    rcases pre with _ | ⟨st', pre⟩
    · obtain ⟨rfl, rfl⟩ := List.cons.inj hsteps
      obtain ⟨hinv, hcurr, hoff, hmask'⟩ := inv_osInit hk h
      exact .starting (List.nil_append ts) hinv hcurr hoff (hmask'.trans hmask)
    · obtain ⟨rfl, rfl⟩ := List.cons.inj hsteps
      have hmem : st ∈ [.sysTickInit, .gpioInit] := hpre.subset List.mem_cons_self
      have hpre' : pre <:+ [.sysTickInit, .gpioInit] := (List.suffix_cons st pre).trans hpre
      simp only [List.mem_cons, List.not_mem_nil, or_false] at hmem
      rcases hmem with rfl | rfl
      · obtain rfl := Except.ok.inj h
        exact .hardware hpre' ⟨hk.osCurr, hk.osNext, hk.osThread, hk.osReadySet, hk.osDelayedSet,
          hk.tcb, (pendSVSet_sysTickInit k.scs).trans hk.pendSV⟩ hmask
      · obtain rfl := Except.ok.inj h
        exact .hardware hpre' hk hmask
  | @starting started todo hl hk hcurr hoff hmask =>
    rcases todo with _ | ⟨q, todo⟩
    · obtain ⟨rfl, rfl⟩ := List.cons.inj hsteps
      obtain rfl := Except.ok.inj h
      rw [List.append_nil] at hl
      subst hl
      have hagree : (osOnStartup k).Agree k :=
        ⟨rfl, rfl, rfl, rfl, rfl, rfl, pendSVSet_nvicSetPriority_sysTick 0 k.scs⟩
      exact .started (hk.of_agree hagree) hcurr (hagree.pendSV.trans hoff) hmask
    · obtain ⟨rfl, rfl⟩ := List.cons.inj hsteps
      have hen : Sys.Enabled ⟨k, started⟩ (.start q.1 q.2) := (hl ▸ hts).enabled k
      obtain ⟨i, hprio, -⟩ := hk.new_of_enabled hen
      have hinv : Sys.Inv ⟨k', started ++ [q]⟩ := hk.step ⟨hen, h, rfl⟩
      obtain rfl := Except.ok.inj ((osThreadStart_eq q.1 hprio).symm.trans h)
      exact .starting (by rw [List.append_assoc]; exact hl) hinv hcurr hoff hmask
  | started hk hcurr hoff hmask =>
    obtain ⟨rfl, rfl⟩ := List.cons.inj hsteps
    obtain rfl := Except.ok.inj h
    exact .masked (hk.of_agree (Kernel.agree_disableIrq k)) rfl
  | masked hk hmask =>
    obtain ⟨rfl, rfl⟩ := List.cons.inj hsteps
    obtain rfl := Except.ok.inj ((osSched_eq k).symm.trans h)
    have hwf : k.resched.WellFormed := Kernel.Effect.run.wellFormed hk.toWellFormed
    exact .scheduled (hk.of_wellFormed hwf k.resched_entry rfl) (k.resched_primask.trans hmask)
  | scheduled hk hmask =>
    obtain ⟨rfl, rfl⟩ := List.cons.inj hsteps
    obtain rfl := Except.ok.inj h
    exact .done (hk.of_agree (Kernel.agree_enableIrq k))
  | done hk => cases hsteps

/-- Before `OS_Init` a tick finds nothing to do. -/
theorem agree_reset_sysTick (hk : k.Agree Kernel.reset) (h : sysTickHandler k = .ok k') :
    k'.Agree Kernel.reset := by
  have hdelayed : k.osDelayedSet = 0 := hk.osDelayedSet
  have hidx : k.Indexed k.osDelayedSet := fun i hi =>
    absurd hdelayed (BitMask.ne_zero_of_getLsbD hi)
  obtain ⟨k₁, hk₁, hagree, -⟩ := sysTickHandler_agree hidx
  obtain rfl := Except.ok.inj (hk₁.symm.trans h)
  rw [hdelayed, Kernel.tickOn_zero] at hagree
  refine (hagree.trans hk.resched).trans ?_
  exact .refl _

/-- A tick outside of the window. -/
theorem Phase.sysTick (hp : Phase ts k l) (h : sysTickHandler k = .ok k')
    (hmask : k.primask = false) (hwindow : ¬(.osInit ∉ l ∧ .disableIrq ∈ l)) : Phase ts k' l := by
  cases hp with
  | hardware hl hk => exact .hardware hl (agree_reset_sysTick hk h) (sysTickHandler_primask h)
  | starting => exact absurd ⟨by simp [startMainSteps, runMainSteps],
      by simp [startMainSteps, runMainSteps]⟩ hwindow
  | started => exact absurd ⟨by simp, by simp⟩ hwindow
  | masked _ hmask' => exact absurd (hmask.symm.trans hmask') Bool.false_ne_true
  | scheduled _ hmask' => exact absurd (hmask.symm.trans hmask') Bool.false_ne_true
  | done hk => exact .done (hk.step (e := .sysTick) ⟨trivial, h, (List.append_nil _).symm⟩)

/-- A switch is possible only at the end of the start-up. -/
theorem Phase.eq_nil (hp : Phase ts k l) (hpend : k.pendSV = true) (hmask : k.primask = false) :
    l = [] ∧ Sys.Inv ⟨k, ts⟩ := by
  cases hp with
  | hardware _ hk => exact absurd (hk.pendSV.symm.trans hpend) (by decide)
  | starting _ _ _ hoff => exact absurd (hoff.symm.trans hpend) Bool.false_ne_true
  | started _ _ hoff => exact absurd (hoff.symm.trans hpend) Bool.false_ne_true
  | masked _ hmask' => exact absurd (hmask.symm.trans hmask') Bool.false_ne_true
  | scheduled _ hmask' => exact absurd (hmask.symm.trans hmask') Bool.false_ne_true
  | done hk => exact ⟨rfl, hk⟩

/-- At a switch the set-up is over. -/
theorem Phase.setUp {b : Boot} (hp : Phase ts b.kernel b.rest) (hen : b.Enabled .pendSV) :
    b.SetUp ts := by
  obtain ⟨hrest, hk⟩ := hp.eq_nil hen.1 hen.2
  exact ⟨by simp [hrest], by simp [hrest], fun q hq => (hk.entry_of_started q hq).2⟩

/-- A step that is no tick in the window keeps to the phases. -/
theorem Phase.step {b b' : Boot} {e : BootEvent} (hts : Startable ts)
    (hp : Phase ts b.kernel b.rest) (hC : e = .sysTick → ¬b.TickWindow) (h : b.Step e b') :
    Phase ts b'.kernel b'.rest := by
  obtain ⟨hen, hexec⟩ := h
  cases e with
  | main =>
    rcases b with ⟨k, _ | ⟨st, rest⟩, ab⟩
    · exact absurd rfl hen.2
    · obtain ⟨k', hk', hb'⟩ := bind_eq_ok.mp hexec
      obtain rfl := Except.ok.inj hb'
      exact hp.main hts hk'
  | sysTick =>
    obtain ⟨k', hk', hb'⟩ := bind_eq_ok.mp hexec
    obtain rfl := Except.ok.inj hb'
    exact hp.sysTick hk' hen.2 (hC rfl)
  | pendSV =>
    obtain ⟨k', hk', hb'⟩ := bind_eq_ok.mp hexec
    obtain rfl := Except.ok.inj hb'
    obtain ⟨hrest, hk⟩ := hp.eq_nil hen.1 hen.2
    have hinv : Sys.Inv ⟨k', ts⟩ := hk.step (e := .pendSV) ⟨hen.1, hk', (List.append_nil _).symm⟩
    rw [hrest]
    exact .done hinv

/-- A tick in the window makes a switch possible. -/
theorem Phase.tick_in_window (hp : Phase ts k l) (h : sysTickHandler k = .ok k')
    (hwindow : .osInit ∉ l ∧ .disableIrq ∈ l) : k'.pendSV = true ∧ .sched ∈ l := by
  have hpend {started : List (TcbPtr × BitVec 8)} (hk : Sys.Inv ⟨k, started⟩)
      (hcurr : k.osCurr = none) : k'.pendSV = true := by
    obtain ⟨k₁, hk₁, hagree, -⟩ := sysTickHandler_agree hk.indexed_osDelayedSet
    obtain rfl := Except.ok.inj (hk₁.symm.trans h)
    obtain ⟨t, ht, -⟩ := hk.toTable.tickOn.exists_selected
    rw [hagree.pendSV, Kernel.resched_pendSV, ht, Kernel.tickOn_osCurr, hcurr]
    simp
  cases hp with
  | hardware => exact absurd (by simp) hwindow.1
  | starting _ hk hcurr => exact ⟨hpend hk hcurr, by simp [startMainSteps, runMainSteps]⟩
  | started hk hcurr => exact ⟨hpend hk hcurr, by simp⟩
  | masked | scheduled | done => exact absurd hwindow.2 (by simp)

end Boot

open Boot

/-- **When a switch can abandon `main`.** Let `main` start the threads `ts`, and let exceptions come
between its steps as `es` says. A switch is possible only after all threads have been started and
registered and `OS_Run` has called `OS_Sched`, in every state of the run, if and only if no SysTick
exception is taken after `OS_Init` and before `OS_Run` masks interrupts. -/
theorem switch_after_setUp_iff {ts : List (TcbPtr × BitVec 8)} (hts : Startable ts)
    {es : List BootEvent} {b : Boot} (hr : Run Boot.Step (.init ts) es b) :
    Run.Everywhere Boot.Step (fun b => b.Enabled .pendSV → b.SetUp ts) (.init ts) es ↔
      Run.EveryStep Boot.Step (fun b e => e = .sysTick → ¬b.TickWindow) (.init ts) es := by
  refine Run.everywhere_iff_everyStep (I := fun b => Phase ts b.kernel b.rest)
    (E := fun _ => True) Run.Guarded.unique ?_ ?_ ?_ hr (fun _ _ => trivial) ?_
  · exact fun b hp => hp.setUp
  · exact fun b e b' _ hp hC h => hp.step hts hC h
  · rintro b e b' - hp hC ⟨hen, hexec⟩ hP
    obtain ⟨rfl, hwindow⟩ := not_forall.mp hC
    obtain ⟨k', hk', hb'⟩ := bind_eq_ok.mp hexec
    obtain rfl := Except.ok.inj hb'
    obtain ⟨hpend, hsched⟩ := hp.tick_in_window hk' (not_not.mp hwindow)
    exact (hP ⟨hpend, sysTickHandler_primask hk'⟩).noSched hsched
  · exact .hardware (List.suffix_refl _) (.refl _) rfl

/-- A start-up with a tick before `OS_Init` and one right before the switch. -/
theorem switch_after_setUp_early_tick : Run.Everywhere Boot.Step
    (fun b => b.Enabled .pendSV → b.SetUp [(.thread 0, 3)]) (.init [(.thread 0, 3)])
    [.main, .sysTick, .main, .main, .main, .main, .main, .main, .main, .sysTick, .pendSV] := by
  have hts : Startable [(.thread 0, 3)] := ⟨by simp, by simp, by simp, by simp⟩
  have hsome : (Run.eval Boot.step? (.init [(.thread 0, 3)]) [.main, .sysTick, .main, .main, .main,
      .main, .main, .main, .main, .sysTick, .pendSV]).any (fun _ => true) = true := by
    decide +kernel
  have hcheck : Run.check Boot.step? (fun b e => e != .sysTick || !decide b.TickWindow)
      (.init [(.thread 0, 3)]) [.main, .sysTick, .main, .main, .main, .main, .main, .main, .main,
        .sysTick, .pendSV] = true := by decide +kernel
  obtain ⟨b, hb, -⟩ := Run.Guarded.exists_run_of_any hsome
  have hC := Run.Guarded.everyStep_of_check hcheck
  refine (switch_after_setUp_iff hts hb).mpr fun es₁ e es₂ b hes hr he => ?_
  simpa [he] using hC es₁ e es₂ b hes hr

/-- **No switch before the set-up.** If no tick comes in the window, all threads of the list have
been started and are registered, and `OS_Sched` has been called, in the state in which PendSV is
taken, for every PendSV of the run. -/
theorem setUp_of_pendSV {ts : List (TcbPtr × BitVec 8)} (hts : Startable ts)
    {es : List BootEvent} {b : Boot} (hr : Run Boot.Step (.init ts) es b)
    (hC : Run.EveryStep Boot.Step (fun b e => e = .sysTick → ¬b.TickWindow) (.init ts) es) :
    Run.EveryStep Boot.Step (fun b e => e = .pendSV → b.SetUp ts) (.init ts) es := by
  refine Run.EveryStep.of_invariant (I := fun b => Phase ts b.kernel b.rest)
    Run.Guarded.unique ?_ hr hC (.hardware (List.suffix_refl _) (.refl _) rfl)
  intro b e b' hp hCe h
  refine ⟨hp.step hts hCe h, ?_⟩
  rintro rfl
  exact hp.setUp h.enabled

/-- The converse does not hold: after a tick in the window the switch may still come late. -/
example : (Run.eval Boot.step? (.init [(.thread 0, 3)]) [.main, .main, .main, .sysTick, .main,
    .main, .main, .main, .main]).any (fun b => decide (b.Enabled .pendSV) &&
      decide (.sched ∉ b.rest) && decide (b.kernel.entry 3 = some (.thread 0))) = true := by
  decide +kernel

/-- A tick comes right after `OS_Init`, and PendSV is taken: the idle thread runs, and the thread
that `main` had still to start is not registered. -/
theorem switch_abandons_main : ∃ b b', Run Boot.Step (.init [(.thread 0, 3)])
      [.main, .main, .main, .sysTick] b ∧ b.Step .pendSV b' ∧ ¬b.SetUp [(.thread 0, 3)] ∧
    .threadStart (.thread 0) 3 ∈ b.rest ∧ b'.abandoned = true ∧
    b'.kernel.osCurr = some .idleThread ∧ b'.kernel.entry 3 = none := by
  have hrun : (Run.eval Boot.step? (.init [(.thread 0, 3)]) [.main, .main, .main, .sysTick]).any
      (fun b => decide (.threadStart (.thread 0) 3 ∈ b.rest) && (b.step? .pendSV).any fun b' =>
        b'.abandoned && decide (b'.kernel.osCurr = some .idleThread) &&
          decide (b'.kernel.entry 3 = none)) = true := by decide +kernel
  obtain ⟨b, hb, h⟩ := Run.Guarded.exists_run_of_any hrun
  obtain ⟨hrest, h⟩ := Bool.and_eq_true_iff.mp h
  obtain ⟨b', hb', h⟩ := (Option.any_eq_true _ _).mp h
  simp only [Bool.and_eq_true, decide_eq_true_eq] at hrest h
  exact ⟨b, b', hb, Run.Guarded.step?_eq_some.mp hb',
    fun hsetUp => hsetUp.noStart _ _ hrest, hrest, h.1.1, h.1.2, h.2⟩

end LiteRTOS
