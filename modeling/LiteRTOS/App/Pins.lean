import LiteRTOS.App.Blinking
import LiteRTOS.OS.Preemption

/-!
# The pins of port C under the application

`SysTick_Handler`, `TogglePC3_Main` and the idle thread drive one pin each in `GPIOC_ODR`, by a load
and a store of the whole register. The lock around them keeps nobody out, and a switch in a call of
the idle thread may undo what `TogglePC3_Main` does to PC3. Without such a switch PC3 follows
`TogglePC3_Main`.

The other pins are safe. SysTick leaves PC2 low, so that it is low in all that a thread loads. And
while `TogglePC3_Main` is in a call, the idle thread, which is below it, does not get the processor
(`Kernel.Floor`).

## Main definitions

* `App.Loaded`: a context is between its load and its store.
* `App.IdleFresh`: what the idle thread has loaded of PC3 is up to date.
* `App.PinInv`: what is known of the register and of the values loaded from it.

## Main results

* `App.Inv.loaded_step`, `App.Inv.odr_step`: what an event does to the loaded values and to the
  register.
* `App.pc3_toggles`: PC3 in every run without a switch inside of a call of the idle thread.
* `App.PinInv.step`: every event keeps the invariant.
* `App.pins_kept`: the pins other than PC3 in every run.
-/

namespace LiteRTOS

open Kernel

/-! ### Port C in the kernel -/

/-- The pins but PC2 are left as they are by all functions of the kernel. -/
theorem Sys.Inv.pin_step {s s' : Sys} {ev : Event} (h : s.Inv) (hs : s.Step ev s') {i : ℕ}
    (hi : i ≠ Pin.pc2.bit) :
    s'.kernel.portC.odr.getLsbD i = s.kernel.portC.odr.getLsbD i := by
  rw [h.portC_step hs]
  split_ifs
  · change (PinCall.update ⟨.pc2, false⟩ (PinCall.update ⟨.pc2, true⟩ _)).getLsbD i = _
    rw [PinCall.getLsbD_update, if_neg hi, PinCall.getLsbD_update, if_neg hi]
    rfl
  · rfl

/-- The functions of the kernel leave the pins as they are, but for PC2, which SysTick clears. -/
theorem Sys.Inv.odr_step {s s' : Sys} {ev : Event} (h : s.Inv) (hs : s.Step ev s') (i : ℕ) :
    s'.kernel.portC.odr.getLsbD i = s.kernel.portC.odr.getLsbD i ∨
      (i = Pin.pc2.bit ∧ s'.kernel.portC.odr.getLsbD i = false) := by
  by_cases hi : i = Pin.pc2.bit
  · subst hi
    rw [h.portC_step hs]
    split_ifs
    · refine .inr ⟨rfl, ?_⟩
      change (PinCall.update ⟨.pc2, false⟩ (PinCall.update ⟨.pc2, true⟩ _)).getLsbD _ = _
      rw [PinCall.getLsbD_update, if_pos rfl]
    · exact .inl rfl
  · exact .inl (h.pin_step hs hi)

/-- The instruction is a store of `GPIOC_ODR`. -/
def AppInstr.isStoreC : AppInstr → Bool
  | .storeC _ => true
  | _ => false

namespace App

variable {a a' : App} {e : AppEvent} {es : List AppEvent} {t : TcbPtr} {c : Option TcbPtr}
  {i : AppInstr} {l : List AppInstr}

/-! ### The calls in the code -/

/-- `GPIOC_ODR`. -/
def odr (a : App) : BitVec 32 := a.sys.kernel.portC.odr

/-- The context `c` has loaded `GPIOC_ODR` and is about to store it. -/
def Loaded (a : App) (c : Option TcbPtr) : Prop :=
  (a.todo c).head?.any AppInstr.isStoreC = true

instance (a : App) (c : Option TcbPtr) : Decidable (a.Loaded c) :=
  inferInstanceAs (Decidable (_ = _))

/-- The contexts that store to port C. -/
theorem eq_of_storeC_mem {pinCall : PinCall} (h : .storeC pinCall ∈ loopCode (some t)) :
    pinCall.pin = .pc3 ∧ t = togglePC3Thread ∨ pinCall.pin = .pc10 ∧ t = .idleThread := by
  match t, h with
  | .idleThread, h =>
    simp only [loopCode, idleThreadMain, osOnIdle, PinCall.code, List.mem_append, List.mem_cons,
      reduceCtorEq, AppInstr.storeC.injEq, List.not_mem_nil, or_false, false_or] at h
    rcases h with rfl | rfl <;> exact .inr ⟨rfl, rfl⟩
  | .thread 0, h => simp [loopCode, blinkyMain, ledOn, ledOff] at h
  | .thread 1, h =>
    simp only [loopCode, togglePC3Main, PinCall.code, List.mem_append, List.mem_cons,
      reduceCtorEq, AppInstr.storeC.injEq, List.not_mem_nil, or_false, false_or] at h
    rcases h with rfl | rfl <;> exact .inl ⟨rfl, rfl⟩
  | .thread (n + 2), h => cases h

/-- In the code of a thread a store follows on a load. -/
theorem eq_loadC_of_suffix {i : AppInstr} {l : List AppInstr}
    (h : i :: l <:+ loopCode (some t)) (hl : l.head?.any AppInstr.isStoreC = true) :
    i = .loadC := by
  have htails : ∀ x ∈ (loopCode (some t)).tails,
      x.tail.head?.any AppInstr.isStoreC = true → x.head? = some .loadC := by
    match t with
    | .idleThread => decide
    | .thread 0 => decide
    | .thread 1 => decide
    | .thread (n + 2) => simp [loopCode]
  exact Option.some.inj (htails _ ((List.mem_tails _ _).mpr h) hl)

theorem loaded_of_storeC {pinCall : PinCall} (hl : a.todo c = .storeC pinCall :: l) :
    a.Loaded c := by
  rw [Loaded, hl]
  rfl

/-- No loop begins with a store. -/
theorem not_loaded_loopCode (h : (loopCode c).head?.any AppInstr.isStoreC = true) : False := by
  match c, h with
  | none, h | some .idleThread, h | some (.thread 0), h | some (.thread 1), h
  | some (.thread (n + 2)), h => cases h

theorem MainPhase.not_loaded {started : List (TcbPtr × BitVec 8)} (h : MainPhase started l) :
    l.head?.any AppInstr.isStoreC ≠ true := by
  cases h <;> exact Bool.false_ne_true

/-! ### What an event does -/

/-- A context that is about to store has loaded just now, or it has been waiting for the
processor. -/
theorem Inv.loaded_step (h : a.Inv) (hs : a.Step e a') (hloaded : a'.Loaded c) :
    (e = .instr ∧ a.active = c ∧ a'.sys = a.sys ∧ a'.reg c = a.odr) ∨
      (a.Loaded c ∧ a'.reg c = a.reg c ∧ (e = .instr → a.active ≠ c)) := by
  by_cases hact : e = .instr ∧ a.active = c
  · obtain ⟨rfl, rfl⟩ := hact
    refine .inl ⟨rfl, rfl, ?_⟩
    rcases hs.todo_active with ⟨-, hl'⟩ | ⟨i, l, hl, hl'⟩
    · rw [Loaded, hl'] at hloaded
      exact (not_loaded_loopCode hloaded).elim
    · rw [Loaded, hl'] at hloaded
      rcases hc : a.active with _ | t
      · have hmain := (h.step hs).main
        rw [← hc, hl'] at hmain
        exact absurd hloaded hmain.not_loaded
      · have hsuffix := h.thread t
        rw [← hc, hl, hc] at hsuffix
        obtain rfl := eq_loadC_of_suffix hsuffix hloaded
        have hexec : AppInstr.loadC.exec a.active (a.goto a.active l) = .ok a' := by
          have hexec := hs.exec
          rwa [App.exec, hl] at hexec
        obtain rfl := Except.ok.inj hexec
        exact ⟨rfl, hc ▸ load_reg_self ..⟩
  · have hne : e = .instr → a.active ≠ c := fun he hc => hact ⟨he, hc⟩
    obtain ⟨htodo, hreg⟩ := hs.frame_of_ne hne
    rw [Loaded, htodo] at hloaded
    exact .inr ⟨hloaded, hreg, hne⟩

/-- A thread stores what it has loaded with its pin changed, or the register stays but for PC2,
which SysTick clears. -/
theorem Inv.odr_step (h : a.Inv) (hs : a.Step e a') :
    (∃ t pinCall l, e = .instr ∧ a.active = some t ∧ a.todo (some t) = .storeC pinCall :: l ∧
      a'.todo (some t) = l ∧ a'.odr = pinCall.update (a.reg (some t))) ∨
    ((e = .instr → ∀ pinCall l, a.todo a.active ≠ .storeC pinCall :: l) ∧
      ∀ i, a'.odr.getLsbD i = a.odr.getLsbD i ∨ (i = Pin.pc2.bit ∧ a'.odr.getLsbD i = false)) := by
  cases hs.moves with
  | loop hl => exact .inr ⟨fun _ pinCall l hstore => by simp [hl] at hstore, fun i => .inl rfl⟩
  | call hl hexec =>
    have hstep := step_of_sysExec (h.enabled_of_call hs.enabled hl) hexec
    exact .inr ⟨fun _ pinCall l hstore => by simp [hl] at hstore, h.sys.odr_step hstep⟩
  | sysTick hs' | pendSV hs' => exact .inr ⟨nofun, h.sys.odr_step hs'⟩
  | @instr i l a' hl hcall ha' =>
    cases i with
    | call ev => exact absurd rfl (hcall ev)
    | storeC pinCall =>
      obtain ⟨t, hc, -⟩ := h.exists_mem_loopCode hl hcall
      obtain rfl := Except.ok.inj ha'
      refine .inl ⟨t, pinCall, l, rfl, hc, hc ▸ hl, ?_, by rw [← hc]; rfl⟩
      rw [← hc]
      exact goto_todo_self ..
    | _ =>
      obtain rfl := Except.ok.inj ha'
      exact .inr ⟨fun _ pinCall l hstore => by simp [hl] at hstore, fun i => .inl rfl⟩

/-! ### PC3 -/

/-- The level of PC3. -/
def pc3 (a : App) : Bool := a.sys.kernel.portC.odr.getLsbD Pin.pc3.bit

/-- The idle thread has loaded `GPIOC_ODR` and is about to store it. -/
def IdleLoaded (a : App) : Prop := a.Loaded (some .idleThread)

instance (a : App) : Decidable a.IdleLoaded := inferInstanceAs (Decidable (a.Loaded _))

/-- PendSV interrupts the idle thread between its load of `GPIOC_ODR` and the store. -/
def SwitchInIdleCall (a : App) (e : AppEvent) : Prop :=
  e = .pendSV ∧ a.active = some .idleThread ∧ a.IdleLoaded

/-- While the idle thread is about to store, it has the processor, and what it has loaded of PC3 is
up to date. -/
def IdleFresh (a : App) : Prop :=
  a.IdleLoaded → a.active = some .idleThread ∧
    (a.reg (some .idleThread)).getLsbD Pin.pc3.bit = a.pc3

instance (a : App) (e : AppEvent) : Decidable (a.SwitchInIdleCall e) :=
  inferInstanceAs (Decidable (_ ∧ _))

theorem togglePC3_drives_of_ne (hi : ∀ pinCall, i ≠ .storeC pinCall) :
    togglePC3.drives i = none := by
  cases i with
  | storeC pinCall => exact absurd rfl (hi pinCall)
  | _ => rfl

/-- PC3 changes only when `TogglePC3_Main` stores. -/
theorem Inv.pc3_step (h : a.Inv) (hfresh : a.IdleFresh) (hs : a.Step e a') :
    a'.pc3 = drivenLevel togglePC3 togglePC3Thread a e a.pc3 := by
  rcases h.odr_step hs with ⟨t, pinCall, l, rfl, hc, hl, -, hodr⟩ | ⟨hstore, hodr⟩
  · have hactive : a.todo a.active = .storeC pinCall :: l := hc ▸ hl
    have hpc3 : a'.pc3 = (pinCall.update (a.reg (some t))).getLsbD Pin.pc3.bit :=
      congrArg (BitVec.getLsbD · Pin.pc3.bit) hodr
    rw [drivenLevel_of_cons hactive, hpc3, PinCall.getLsbD_update]
    rcases eq_of_storeC_mem (h.mem_loopCode hl) with ⟨hpin, rfl⟩ | ⟨hpin, rfl⟩
    · simp [togglePC3, hpin, hc]
    · rw [hpin, if_neg (by decide), (hfresh (loaded_of_storeC hl)).2, hc, if_neg (by decide)]
  · have hpc3 : a'.pc3 = a.pc3 :=
      (hodr Pin.pc3.bit).resolve_right fun hpin => absurd hpin.1 (by decide)
    rw [hpc3]
    by_cases he : e = .instr
    · subst he
      rcases hl : a.todo a.active with _ | ⟨i, l⟩
      · rw [drivenLevel_of_nil hl]
      · have hi (pinCall : PinCall) : i ≠ .storeC pinCall := by
          rintro rfl
          exact hstore rfl pinCall l hl
        rw [drivenLevel_of_none hl (togglePC3_drives_of_ne hi)]
    · exact (if_neg fun h => he h.1).symm

/-- Without a switch in a call of the idle thread what it has loaded stays up to date. -/
theorem Inv.idleFresh_step (h : a.Inv) (hfresh : a.IdleFresh) (hs : a.Step e a')
    (hC : ¬a.SwitchInIdleCall e) : a'.IdleFresh := by
  intro hloaded
  rcases h.loaded_step hs hloaded with ⟨-, hc, hsys, hreg⟩ | ⟨hidle, hreg, hne⟩
  · rw [active, pc3, hsys, hreg]
    exact ⟨hc, rfl⟩
  · obtain ⟨hc, hbit⟩ := hfresh hidle
    rw [hreg, hbit]
    cases hs.moves with
    | loop | instr | call => exact absurd hc (hne rfl)
    | @sysTick s hs' =>
      obtain ⟨k₁, hagree, heff⟩ := h.sys.effect hs'
      cases heff with
      | sysTick =>
        have hcurr : s.kernel.osCurr = a.sys.kernel.osCurr := hagree.osCurr.trans (resched_osCurr _)
        exact ⟨hcurr.trans hc, (h.sys.pin_step hs' (by decide)).symm⟩
    | pendSV => exact absurd ⟨rfl, hc, hidle⟩ hC

/-- **PC3 toggles.** In every run in which no switch interrupts a call of the idle thread on port C
between its load and its store, while `TogglePC3_Main` sleeps PC3 is high in the first twenty ticks
that it has slept of every sixty. -/
theorem pc3_toggles (hr : Run Step .init es a)
    (hC : Run.EveryStep Step (fun a e => ¬a.SwitchInIdleCall e) .init es)
    (hasleep : a.sys.Asleep togglePC3Thread) :
    a.pc3 = true ↔ Run.total step? (slept togglePC3Thread) .init es % 60 < 20 := by
  refine level_iff_slept togglePC3 pc3 (I := fun a => a.Inv ∧ a.IdleFresh) rfl
    (fun _ => And.left) ?_ ⟨inv_init, ?_⟩ hr hC hasleep
  · rintro a e a' ⟨ha, hfresh⟩ hs hCe
    exact ⟨⟨ha.step hs, ha.idleFresh_step hfresh hs hCe⟩, ha.pc3_step hfresh hs⟩
  · intro hloaded
    exact absurd hloaded (by decide)

/-- Both threads sleep, and the idle thread runs. -/
def toIdleEvents : List AppEvent :=
  [.instr, .instr, .instr, .pendSV, .instr, .instr, .instr, .pendSV, .instr, .instr, .instr, .instr,
    .instr, .pendSV]

theorem pc3_toggles_idle : ∃ a, Run Step .init (toIdleEvents ++ [.instr, .instr, .sysTick]) a ∧
    a.pc3 = true := by
  have hrun : (Run.eval step? .init (toIdleEvents ++ [.instr, .instr, .sysTick])).any
      (fun a => decide (a.sys.Asleep togglePC3Thread)) = true := by decide +kernel
  have hslept : Run.total step? (slept togglePC3Thread) .init
      (toIdleEvents ++ [.instr, .instr, .sysTick]) = 1 := by decide +kernel
  have hcheck : Run.check step? (fun a e => !decide (a.SwitchInIdleCall e)) .init
      (toIdleEvents ++ [.instr, .instr, .sysTick]) = true := by decide +kernel
  obtain ⟨a, hr, h⟩ := Run.Guarded.exists_run_of_any hrun
  have hC := Run.Guarded.everyStep_of_check hcheck
  refine ⟨a, hr, (pc3_toggles hr (fun es₁ e es₂ b hes hb => ?_) (of_decide_eq_true h)).mpr ?_⟩
  · simpa using hC es₁ e es₂ b hes hb
  · rw [hslept]
    decide

/-- The idle thread loads `GPIOC_ODR`, and before it stores it both threads are woken and go to
sleep again. -/
def writtenBackEvents : List AppEvent :=
  toIdleEvents ++ .instr :: .instr :: List.replicate 20 .sysTick ++
    [.pendSV, .instr, .instr, .instr, .pendSV, .instr, .instr, .instr, .instr, .instr, .pendSV,
      .instr]

/-- A switch between the load and the store of the idle thread: it writes back the high level of
PC3 that it has loaded before `TogglePC3_Main` cleared it. -/
theorem pc3_written_back : ∃ a, Run Step .init writtenBackEvents a ∧
    a.sys.Asleep togglePC3Thread ∧ a.pc3 = true ∧
    Run.total step? (slept togglePC3Thread) .init writtenBackEvents = 20 := by
  have hrun : (Run.eval step? .init writtenBackEvents).any
      (fun a => decide (a.sys.Asleep togglePC3Thread) && a.pc3) = true := by decide +kernel
  obtain ⟨a, hr, h⟩ := Run.Guarded.exists_run_of_any hrun
  obtain ⟨hasleep, hpc3⟩ := Bool.and_eq_true_iff.mp h
  exact ⟨a, hr, of_decide_eq_true hasleep, hpc3, by decide +kernel⟩

/-! ### The other pins -/

/-- With the code `l` before it, the idle thread has set PC10 and not cleared it yet. -/
def SetsPC10 (l : List AppInstr) : Prop :=
  .storeC ⟨.pc10, true⟩ ∉ l ∧ .storeC ⟨.pc10, false⟩ ∈ l

instance (l : List AppInstr) : Decidable (SetsPC10 l) := inferInstanceAs (Decidable (_ ∧ _))

/-- The pins but PC3 and PC10 are low, also in what a context has loaded. While `TogglePC3_Main` is
in a call, the processor does not go below it, and what it has loaded of PC10 is up to date. -/
structure PinInv (a : App) : Prop extends a.Inv where
  low : ∀ i, i ≠ Pin.pc3.bit → i ≠ Pin.pc10.bit → a.odr.getLsbD i = false
  reg_low : ∀ c, a.Loaded c → ∀ i, i ≠ Pin.pc3.bit → i ≠ Pin.pc10.bit →
    (a.reg c).getLsbD i = false
  floor : a.Loaded (some togglePC3Thread) → ∃ i, a.sys.kernel.Floor togglePC3Thread i
  reg_pc10 : a.Loaded (some togglePC3Thread) →
    (a.reg (some togglePC3Thread)).getLsbD Pin.pc10.bit = a.odr.getLsbD Pin.pc10.bit
  pc10 : a.odr.getLsbD Pin.pc10.bit = true ↔ SetsPC10 (a.todo (some .idleThread))

/-- What the stores of the idle thread leave to do. -/
theorem setsPC10_of_storeC {pinCall : PinCall}
    (h : .storeC pinCall :: l <:+ loopCode (some .idleThread)) :
    SetsPC10 l ↔ pinCall.level = true := by
  have htails : ∀ x ∈ (loopCode (some .idleThread)).tails, ∀ b,
      x.head? = some (.storeC ⟨.pc10, b⟩) → (SetsPC10 x.tail ↔ b = true) := by decide
  have hpin : pinCall.pin = .pc10 := by
    rcases eq_of_storeC_mem (h.subset List.mem_cons_self) with ⟨-, ht⟩ | ⟨hpin, -⟩
    · cases ht
    · exact hpin
  obtain ⟨pin, level⟩ := pinCall
  obtain rfl : pin = .pc10 := hpin
  exact htails _ ((List.mem_tails _ _).mpr h) level rfl

theorem setsPC10_cons (hi : ∀ pinCall, i ≠ .storeC pinCall) : SetsPC10 (i :: l) ↔ SetsPC10 l := by
  simp only [SetsPC10, List.mem_cons, (hi _).symm, false_or]

namespace PinInv

theorem low_step (h : a.PinInv) (hs : a.Step e a') (i : ℕ) (h3 : i ≠ Pin.pc3.bit)
    (h10 : i ≠ Pin.pc10.bit) : a'.odr.getLsbD i = false := by
  rcases h.odr_step hs with ⟨t, pinCall, l, -, hc, hl, -, hodr⟩ | ⟨-, hodr⟩
  · have hne : i ≠ pinCall.pin.bit := by
      have hmem := h.mem_loopCode hl
      rcases eq_of_storeC_mem hmem with ⟨hpin, -⟩ | ⟨hpin, -⟩
      · rwa [hpin]
      · rwa [hpin]
    rw [hodr, PinCall.getLsbD_update, if_neg hne]
    exact h.reg_low _ (loaded_of_storeC hl) i h3 h10
  · rcases hodr i with heq | ⟨-, hfalse⟩
    · exact heq.trans (h.low i h3 h10)
    · exact hfalse

theorem reg_low_step (h : a.PinInv) (hs : a.Step e a') (hloaded : a'.Loaded c) (i : ℕ)
    (h3 : i ≠ Pin.pc3.bit) (h10 : i ≠ Pin.pc10.bit) : (a'.reg c).getLsbD i = false := by
  rcases h.loaded_step hs hloaded with ⟨-, -, -, hreg⟩ | ⟨hbefore, hreg, -⟩
  · rw [hreg]
    exact h.low i h3 h10
  · rw [hreg]
    exact h.reg_low c hbefore i h3 h10

/-- `TogglePC3_Main` runs when it begins a call, and calls no function of the kernel in it. -/
theorem floor_step (h : a.PinInv) (hs : a.Step e a') (hloaded : a'.Loaded (some togglePC3Thread)) :
    ∃ i, a'.sys.kernel.Floor togglePC3Thread i := by
  rcases h.loaded_step hs hloaded with ⟨rfl, hc, hsys, -⟩ | ⟨hbefore, -, hne⟩
  · rw [hsys]
    exact h.sys.toWellFormed.floor hs.enabled hc nofun
  · obtain ⟨i, hfloor⟩ := h.floor hbefore
    refine ⟨i, ?_⟩
    cases h.kernelStep hs with
    | stay _ _ hagree => exact hagree.symm.floor hfloor
    | step hev hstep =>
      refine h.sys.floor_step hstep hfloor ?_
      rintro ⟨hcurr, n, rfl⟩
      cases e with
      | instr => exact hne rfl hcurr
      | sysTick | pendSV => simp [kernelEvent] at hev

/-- The idle thread does not run while `TogglePC3_Main` is in a call. -/
theorem active_ne_idle (h : a.PinInv) (hloaded : a.Loaded (some togglePC3Thread)) :
    a.active ≠ some .idleThread := by
  obtain ⟨i, hfloor⟩ := h.floor hloaded
  obtain ⟨u, j, hu, hentry, -⟩ := hfloor.curr
  intro hc
  obtain rfl := Option.some.inj (hu.symm.trans hc)
  exact h.sys.ne_idleThread hentry rfl

theorem reg_pc10_step (h : a.PinInv) (hs : a.Step e a')
    (hloaded : a'.Loaded (some togglePC3Thread)) :
    (a'.reg (some togglePC3Thread)).getLsbD Pin.pc10.bit = a'.odr.getLsbD Pin.pc10.bit := by
  rcases h.loaded_step hs hloaded with ⟨-, -, hsys, hreg⟩ | ⟨hbefore, hreg, hne⟩
  · rw [hreg, odr, odr, hsys]
  · rw [hreg, h.reg_pc10 hbefore]
    rcases h.odr_step hs with ⟨t, pinCall, l, rfl, hc, hl, -, -⟩ | ⟨-, hodr⟩
    · -- the store is one of the idle thread, which does not run
      rcases eq_of_storeC_mem (h.mem_loopCode hl) with ⟨-, rfl⟩ | ⟨-, rfl⟩
      · exact absurd hc (hne rfl)
      · exact absurd hc (h.active_ne_idle hbefore)
    · rcases hodr Pin.pc10.bit with heq | ⟨hpin, -⟩
      · exact heq.symm
      · exact absurd hpin (by decide)

theorem pc10_step (h : a.PinInv) (hs : a.Step e a') :
    a'.odr.getLsbD Pin.pc10.bit = true ↔ SetsPC10 (a'.todo (some .idleThread)) := by
  rcases h.odr_step hs with ⟨t, pinCall, l, rfl, hc, hl, hl', hodr⟩ | ⟨hstore, hodr⟩
  · have hmem := h.mem_loopCode hl
    rw [hodr, PinCall.getLsbD_update]
    rcases eq_of_storeC_mem hmem with ⟨hpin, rfl⟩ | ⟨hpin, rfl⟩
    · have hne : a.active ≠ some .idleThread := h.active_ne_idle (loaded_of_storeC hl)
      have htodo := (hs.frame_of_ne fun _ => hne).1
      rw [hpin, if_neg (by decide), h.reg_pc10 (loaded_of_storeC hl), htodo]
      exact h.pc10
    · rw [hpin, if_pos rfl, hl']
      exact (setsPC10_of_storeC (hl ▸ h.thread _)).symm
  · have heq : a'.odr.getLsbD Pin.pc10.bit = a.odr.getLsbD Pin.pc10.bit :=
      (hodr Pin.pc10.bit).resolve_right fun hpin => absurd hpin.1 (by decide)
    rw [heq, h.pc10]
    by_cases hact : e = .instr ∧ a.active = some .idleThread
    · obtain ⟨rfl, hc⟩ := hact
      rcases hs.todo_active with ⟨hl, hl'⟩ | ⟨i, l, hl, hl'⟩
      · rw [← hc, hl, hl', hc]
        decide
      · have hi (pinCall : PinCall) : i ≠ .storeC pinCall := by
          rintro rfl
          exact hstore rfl pinCall l hl
        rw [← hc, hl, hl']
        exact setsPC10_cons hi
    · rw [(hs.frame_of_ne fun he hc => hact ⟨he, hc⟩).1]

/-- Every event keeps the invariant. -/
theorem step (h : a.PinInv) (hs : a.Step e a') : a'.PinInv where
  toInv := h.toInv.step hs
  low := h.low_step hs
  reg_low _ := h.reg_low_step hs
  floor := h.floor_step hs
  reg_pc10 := h.reg_pc10_step hs
  pc10 := h.pc10_step hs

end PinInv

theorem pinInv_init : App.init.PinInv where
  toInv := inv_init
  low i _ _ := BitVec.getLsbD_zero
  reg_low c _ i _ _ := BitVec.getLsbD_zero
  floor hloaded := (not_loaded_loopCode (c := some togglePC3Thread) hloaded).elim
  reg_pc10 _ := rfl
  pc10 := by decide

/-- **Only PC3 can be written back.** In every run of the application, with exceptions taken between
any two steps and any switches, PC10 is high exactly while the idle thread has set it and not
cleared it yet, and outside of `SysTick_Handler` all pins but PC3 and PC10 are low, PC2 among
them. -/
theorem pins_kept (hr : Run Step .init es a) :
    (a.odr.getLsbD Pin.pc10.bit = true ↔
      .storeC ⟨.pc10, true⟩ ∉ a.todo (some .idleThread) ∧
        .storeC ⟨.pc10, false⟩ ∈ a.todo (some .idleThread)) ∧
    ∀ i, i ≠ Pin.pc3.bit → i ≠ Pin.pc10.bit → a.odr.getLsbD i = false := by
  have h := hr.invariant (P := PinInv) (fun _ _ _ => PinInv.step) pinInv_init
  exact ⟨h.pc10, h.low⟩

/-- The idle thread has set PC10, and SysTick comes before it clears it. -/
theorem pins_kept_idle : ∃ a, Run Step .init
      (toIdleEvents ++ [.instr, .instr, .instr, .sysTick]) a ∧
    a.odr.getLsbD Pin.pc10.bit = true ∧ a.odr.getLsbD Pin.pc2.bit = false := by
  have hrun : (Run.eval step? .init (toIdleEvents ++ [.instr, .instr, .instr, .sysTick])).any
      (fun a => decide (SetsPC10 (a.todo (some .idleThread)))) = true := by decide +kernel
  obtain ⟨a, hr, h⟩ := Run.Guarded.exists_run_of_any hrun
  obtain ⟨hpc10, hlow⟩ := pins_kept hr
  exact ⟨a, hr, hpc10.mpr (of_decide_eq_true h), hlow _ (by decide) (by decide)⟩

end App

end LiteRTOS
