import LiteRTOS.App.Threads
import LiteRTOS.OS.Accounting

/-!
# Threads that blink

A thread that sets a pin, sleeps, clears it and sleeps again is followed along its loop
(`Blinker.Phase`): where it is in its code, what it has asked for and has still to sleep, and the
level of its pin. While it sleeps, the level depends on the ticks that it has slept only, whatever
other threads and exceptions do in between.

The LED is on port A, which no one else writes.

## Main definitions

* `Blinker`, `Blinker.code`: the loop; `App.blinky` and `App.togglePC3` are its two instances.
* `Blinker.Phase`: how far a thread has got with it.
* `App.asked`, `App.slept`: the quantities of `Sys` in the runs of the application.

## Main results

* `Blinker.Phase.level_iff`, `App.level_iff_slept`: the level of the pin while the thread sleeps.
* `App.led_blinks`: the LED in every run.
-/

namespace LiteRTOS

open Kernel

/-! ### A loop that blinks -/

/-- The loop of a thread that sets a pin, sleeps for `onTicks`, clears the pin and sleeps for
`offTicks`, and the level that an instruction stores to the pin. -/
structure Blinker where
  on : List AppInstr
  onTicks : BitVec 32
  off : List AppInstr
  offTicks : BitVec 32
  drives : AppInstr → Option Bool
  call_notMem_on : ∀ ev, .call ev ∉ on
  call_notMem_off : ∀ ev, .call ev ∉ off
  drives_call : ∀ ev, drives (.call ev) = none
  drives_on : ∀ i ∈ on, drives i ≠ some false
  drives_off : ∀ i ∈ off, drives i ≠ some true
  exists_on : ∃ i ∈ on, drives i ≠ none
  exists_off : ∃ i ∈ off, drives i ≠ none
  onTicks_ne : onTicks ≠ 0
  offTicks_ne : offTicks ≠ 0

namespace Blinker

variable (p : Blinker)

/-- The code of the loop. -/
def code : List AppInstr :=
  p.on ++ [.call (.delay p.onTicks)] ++ p.off ++ [.call (.delay p.offTicks)]

/-- The ticks of one round. -/
def period : ℕ := p.onTicks.toNat + p.offTicks.toNat

/-- How far a thread has got with its loop: `level` is the level of the pin, `r` the ticks it has
still to sleep, and `m` the ticks it has asked for so far. -/
inductive Phase (level : Bool) (r m : ℕ) : List AppInstr → Prop
  | turnOn {l : List AppInstr} (hl : l <:+ p.on) (hr : r = 0) (hm : m % p.period = 0)
      (hlevel : (∀ i ∈ l, p.drives i = none) → level = true) :
      Phase level r m (l ++ [.call (.delay p.onTicks)] ++ p.off ++ [.call (.delay p.offTicks)])
  | turnOff {l : List AppInstr} (hl : l <:+ p.off) (hr : r ≤ p.onTicks.toNat)
      (hsleep : 0 < r → l = p.off) (hm : m % p.period = p.onTicks.toNat)
      (hon : l = p.off → level = true)
      (hlevel : (∀ i ∈ l, p.drives i = none) → level = false) :
      Phase level r m (l ++ [.call (.delay p.offTicks)])
  | again (hr : r ≤ p.offTicks.toNat) (hm : m % p.period = 0) (hlevel : level = false) :
      Phase level r m []

variable {p} {level : Bool} {r r' m : ℕ} {l : List AppInstr} {i : AppInstr} {ev : Event}

theorem onTicks_lt : p.onTicks.toNat < p.period := by
  have hpos : 0 < p.offTicks.toNat := Nat.pos_of_ne_zero fun h =>
    p.offTicks_ne (BitVec.eq_of_toNat_eq h)
  rw [period]
  omega

/-- **The level while the thread sleeps.** It is high in the first `onTicks` ticks of each round. -/
theorem Phase.level_iff (h : p.Phase level r m l) (hr : 0 < r) {c : ℕ} (hc : c + r = m) :
    level = true ↔ c % p.period < p.onTicks.toNat := by
  have hlt := p.onTicks_lt
  have hdiv := Nat.div_add_mod m p.period
  cases h with
  | turnOn _ hr' => omega
  | @turnOff l _ hle hsleep hm hon _ =>
    refine iff_of_true (hon (hsleep hr)) ?_
    have hcm : c = p.onTicks.toNat - r + p.period * (m / p.period) := by omega
    rw [hcm, Nat.add_mul_mod_self_left, Nat.mod_eq_of_lt (by omega)]
    omega
  | again hle hm hlevel =>
    refine iff_of_false (by simp [hlevel]) ?_
    have hne : m / p.period ≠ 0 := by
      intro hzero
      rw [hzero] at hdiv
      omega
    obtain ⟨q, hq⟩ := Nat.exists_eq_succ_of_ne_zero hne
    have hle' : r ≤ p.period := hle.trans (Nat.le_add_left ..)
    have hcm : c = p.period - r + p.period * q := by
      rw [hq, Nat.mul_succ] at hdiv
      omega
    have hperiod : p.period = p.onTicks.toNat + p.offTicks.toNat := rfl
    rw [hcm, Nat.add_mul_mod_self_left, Nat.mod_eq_of_lt (by omega)]
    omega

/-! ### Moves along the loop -/

/-- The pin and the place of the thread stay, and it may be a tick further. -/
theorem Phase.mono (h : p.Phase level r m l) (hr : r' ≤ r) : p.Phase level r' m l := by
  cases h with
  | turnOn hl hr' hm hlevel => exact .turnOn hl (by omega) hm hlevel
  | turnOff hl hle hsleep hm hon hlevel =>
    exact .turnOff hl (hr.trans hle) (fun hpos => hsleep (by omega)) hm hon hlevel
  | again hle hm hlevel => exact .again (hr.trans hle) hm hlevel

/-- An instruction that is no call. -/
theorem Phase.instr (h : p.Phase level r m (i :: l)) (hcall : ∀ ev, i ≠ .call ev) :
    p.Phase ((p.drives i).getD level) 0 m l := by
  generalize hl' : i :: l = l' at h
  cases h with
  | @turnOn l₁ hl₁ _ hm hlevel =>
    rcases l₁ with _ | ⟨j, l₁⟩
    · exact absurd (List.cons.inj hl').1 (hcall _)
    obtain ⟨rfl, rfl⟩ := List.cons.inj hl'
    refine .turnOn ((List.suffix_cons i l₁).trans hl₁) rfl hm fun hnone => ?_
    rcases hd : p.drives i with _ | b
    · exact hlevel (by simpa [hd] using hnone)
    · have hb := p.drives_on i (hl₁.subset List.mem_cons_self)
      cases b
      · exact absurd hd hb
      · rfl
  | @turnOff l₁ hl₁ _ _ hm hon hlevel =>
    rcases l₁ with _ | ⟨j, l₁⟩
    · exact absurd (List.cons.inj hl').1 (hcall _)
    obtain ⟨rfl, rfl⟩ := List.cons.inj hl'
    have hne : l₁ ≠ p.off := fun heq => by
      have := hl₁.length_le
      rw [heq, List.length_cons] at this
      omega
    refine .turnOff ((List.suffix_cons i l₁).trans hl₁) (Nat.zero_le _) nofun hm
      (fun heq => absurd heq hne) fun hnone => ?_
    rcases hd : p.drives i with _ | b
    · exact hlevel (by simpa [hd] using hnone)
    · have hb := p.drives_off i (hl₁.subset List.mem_cons_self)
      cases b
      · rfl
      · exact absurd hd hb
  | again => cases hl'

/-- A call, which is one of `OS_msDelay`. -/
theorem Phase.call (h : p.Phase level r m (.call ev :: l)) :
    ∃ n, ev = .delay n ∧ p.Phase level (delayTicks n) (m + delayTicks n) l := by
  generalize hl' : AppInstr.call ev :: l = l' at h
  cases h with
  | @turnOn l₁ hl₁ _ hm hlevel =>
    rcases l₁ with _ | ⟨j, l₁⟩
    · obtain ⟨hev, rfl⟩ := List.cons.inj hl'
      obtain rfl := AppInstr.call.inj hev
      have hn : delayTicks p.onTicks = p.onTicks.toNat := if_neg p.onTicks_ne
      refine ⟨p.onTicks, rfl, ?_⟩
      rw [hn]
      refine .turnOff (List.suffix_refl _) le_rfl (fun _ => rfl) ?_ (fun _ => hlevel nofun) ?_
      · rw [Nat.add_mod, hm, Nat.zero_add, Nat.mod_mod, Nat.mod_eq_of_lt p.onTicks_lt]
      · intro hnone
        obtain ⟨i, hi, hd⟩ := p.exists_off
        exact absurd (hnone i hi) hd
    · obtain ⟨rfl, -⟩ := List.cons.inj hl'
      exact absurd (hl₁.subset List.mem_cons_self) (p.call_notMem_on ev)
  | @turnOff l₁ hl₁ _ _ hm _ hlevel =>
    rcases l₁ with _ | ⟨j, l₁⟩
    · obtain ⟨hev, rfl⟩ := List.cons.inj hl'
      obtain rfl := AppInstr.call.inj hev
      have hn : delayTicks p.offTicks = p.offTicks.toNat := if_neg p.offTicks_ne
      refine ⟨p.offTicks, rfl, ?_⟩
      rw [hn]
      refine .again le_rfl ?_ (hlevel nofun)
      rw [← Nat.mod_add_mod, hm]
      exact Nat.mod_self p.period
    · obtain ⟨rfl, -⟩ := List.cons.inj hl'
      exact absurd (hl₁.subset List.mem_cons_self) (p.call_notMem_off ev)
  | again => cases hl'

/-- The beginning of the loop. -/
theorem Phase.begin (hm : m % p.period = 0) : p.Phase level 0 m p.code := by
  refine .turnOn (List.suffix_refl _) rfl hm fun hnone => ?_
  obtain ⟨i, hi, hd⟩ := p.exists_on
  exact absurd (hnone i hi) hd

/-- The loop begins again. -/
theorem Phase.loop (h : p.Phase level r m []) : p.Phase level 0 m p.code := by
  generalize hl' : [] = l' at h
  cases h with
  | turnOn => simp at hl'
  | turnOff => simp at hl'
  | again _ hm _ => exact .begin hm

end Blinker

/-! ### A thread of the application that blinks -/

theorem Kernel.Agree.remaining {s s' : Sys} (h : s.kernel.Agree s'.kernel) (t : TcbPtr) :
    s.remaining t = s'.remaining t := by
  have hiff : s.Asleep t ↔ s'.Asleep t := by
    rw [Sys.Asleep, Sys.Asleep, h.osDelayedSet]
    exact h.inMask
  simp only [Sys.remaining, hiff, h.tcb]

/-- Without a call of its own a thread does not get more to sleep. -/
theorem Sys.Inv.remaining_le {s s' : Sys} {ev : Event} {t : TcbPtr} (h : s.Inv)
    (hs : s.Step ev s') (hcall : ¬s.Calls t ev) : s'.remaining t ≤ s.remaining t := by
  have hbal := (h.sleep hs t).balance
  rw [Sys.asked_of_not_calls hcall] at hbal
  omega

namespace App

variable {a a' : App} {e : AppEvent} {es : List AppEvent} {t : TcbPtr}

/-- A quantity of the kernel in an event of the application. -/
def kernelTotal (f : Sys → Event → ℕ) (a : App) (e : AppEvent) : ℕ :=
  ((a.kernelEvent e).map (f a.sys)).sum

/-- The ticks that the thread `t` asks for in an event. -/
def asked (t : TcbPtr) : App → AppEvent → ℕ := kernelTotal (Sys.asked t)

/-- The ticks in an event that find the thread `t` asleep. -/
def slept (t : TcbPtr) : App → AppEvent → ℕ := kernelTotal (Sys.slept t)

theorem remaining_init : App.init.sys.remaining t = 0 :=
  Sys.remaining_of_not Sys.not_asleep_init

/-- The ticks that a thread has slept and has still to sleep are those it has asked for. -/
theorem slept_add_remaining (hr : Run Step .init es a) (t : TcbPtr) :
    Run.total step? (slept t) .init es + a.sys.remaining t =
      Run.total step? (asked t) .init es := by
  have heval (a : App) (e : AppEvent) (a' : App) : a.Step e a' → a.step? e = some a' :=
    Run.Guarded.step?_eq_some.mpr
  have hbal := Run.total_balance (Φ := fun a : App => a.sys.remaining t) (I := App.Inv)
    (f := asked t) (g := slept t) heval ?_ hr inv_init
  · rw [remaining_init, Nat.zero_add] at hbal
    rw [Nat.add_comm, hbal]
  · intro a e a' ha hs
    refine ⟨ha.step hs, ?_⟩
    cases ha.kernelStep hs with
    | step hev hstep => simpa [asked, slept, kernelTotal, hev] using (ha.sys.sleep hstep t).balance
    | stay hev _ hagree => simp [asked, slept, kernelTotal, hev, hagree.remaining t]

/-- The level of the pin of a blinking thread `t` after an event, when it was `b` before. -/
def drivenLevel (p : Blinker) (t : TcbPtr) (a : App) (e : AppEvent) (b : Bool) : Bool :=
  if e = .instr ∧ a.active = some t then ((a.todo (some t)).head?.bind p.drives).getD b else b

/-- The thread that has the processor has nothing to sleep. -/
theorem Inv.remaining_eq_zero (h : a.Inv) (hp : a.sys.kernel.pendSV = false)
    (hc : a.active = some t) : a.sys.remaining t = 0 := by
  refine Sys.remaining_of_not fun hasleep => ?_
  obtain ⟨i, c, hw⟩ := Sys.exists_waits hasleep
  exact hw.not_runnable h.sys.toTable (h.sys.curr hp t hc)

/-- An event in which another context acts. -/
theorem Inv.frame_of_ne (h : a.Inv) (hs : a.Step e a') (hne : e = .instr → a.active ≠ some t) :
    a'.todo (some t) = a.todo (some t) ∧ asked t a e = 0 ∧
      a'.sys.remaining t ≤ a.sys.remaining t := by
  obtain ⟨htodo, -⟩ := hs.frame_of_ne hne
  cases h.kernelStep hs with
  | stay hev _ hagree =>
    exact ⟨htodo, by simp [asked, kernelTotal, hev], (hagree.remaining t).le⟩
  | @step ev hev hstep =>
    have hcall : ¬a.sys.Calls t ev := by
      rintro ⟨hcurr, n, rfl⟩
      cases e with
      | instr => exact hne rfl hcurr
      | sysTick | pendSV => simp [kernelEvent] at hev
    refine ⟨htodo, ?_, h.sys.remaining_le hstep hcall⟩
    simp [asked, kernelTotal, hev, Sys.asked_of_not_calls hcall]

/-- One event of the application moves a blinking thread along its loop. -/
theorem Inv.phase_step {p : Blinker} {level level' : Bool} {m : ℕ} (h : a.Inv) (hs : a.Step e a')
    (hcode : p.code = loopCode (some t)) (hlevel : level' = drivenLevel p t a e level)
    (hp : p.Phase level (a.sys.remaining t) m (a.todo (some t))) :
    p.Phase level' (a'.sys.remaining t) (m + asked t a e) (a'.todo (some t)) := by
  by_cases hact : e = .instr ∧ a.active = some t
  · obtain ⟨rfl, hc⟩ := hact
    rw [drivenLevel, if_pos ⟨rfl, hc⟩] at hlevel
    have hzero := h.remaining_eq_zero hs.enabled hc
    rw [hzero] at hp
    cases hs.moves with
    | loop hl =>
      have hasked : asked t a .instr = 0 := by simp [asked, kernelTotal, kernelEvent_of_nil hl]
      have htodo : (a.goto a.active (loopCode a.active)).todo (some t) = p.code := by
        rw [hc, hcode, goto_todo_self]
      rw [hc] at hl
      rw [hl] at hp hlevel
      rw [hasked, htodo, hlevel]
      change p.Phase _ (a.sys.remaining t) _ _
      rw [hzero]
      exact hp.loop
    | @instr i l a' hl hcall ha' =>
      obtain ⟨htodo, -, hagree⟩ := instr_frame hcall ha'
      have hasked : asked t a .instr = 0 := by simp [asked, kernelTotal, kernelEvent_of_ne hl hcall]
      have hrest : a'.todo (some t) = l := by rw [htodo, hc, goto_todo_self]
      rw [hc] at hl
      rw [hl] at hp hlevel
      rw [hasked, hrest, hlevel, hagree.remaining t]
      change p.Phase _ (a.sys.remaining t) _ _
      rw [hzero]
      exact hp.instr hcall
    | @call ev l s hl hexec =>
      have hstep := step_of_sysExec (h.enabled_of_call hs.enabled hl) hexec
      have hasked : asked t a .instr = Sys.asked t a.sys ev := by
        simp [asked, kernelTotal, kernelEvent_of_call hl]
      have hrest : (a.goto a.active l).todo (some t) = l := by rw [hc, goto_todo_self]
      have hbal := (h.sys.sleep hstep t).balance
      rw [hc] at hl
      rw [hl] at hp hlevel
      obtain ⟨n, rfl, hp'⟩ := hp.call
      have hn : Sys.asked t a.sys (.delay n) = delayTicks n := if_pos hc
      rw [Sys.slept_of_ne (by simp), hzero, hn, Nat.zero_add, Nat.add_zero] at hbal
      rw [List.head?_cons, Option.bind_some, p.drives_call, Option.getD_none] at hlevel
      change p.Phase level' (s.remaining t) _ ((a.goto a.active l).todo (some t))
      rw [hasked, hn, hrest, hlevel, hbal]
      exact hp'
  · obtain ⟨htodo, hasked, hle⟩ := h.frame_of_ne hs fun he hc => hact ⟨he, hc⟩
    rw [drivenLevel, if_neg hact] at hlevel
    rw [htodo, hasked, hlevel]
    exact hp.mono hle

/-- **A blinking thread.** In a run whose steps meet the condition `C` let the level of a pin be
changed by the thread `t` only. While `t` sleeps, the pin is high in the first `onTicks` ticks that
`t` has slept of each round. -/
theorem level_iff_slept (p : Blinker) (level : App → Bool) {I : App → Prop}
    {C : App → AppEvent → Prop} (hcode : p.code = loopCode (some t)) (hI : ∀ a, I a → a.Inv)
    (hstep : ∀ a e a', I a → a.Step e a' → C a e →
      I a' ∧ level a' = drivenLevel p t a e (level a))
    (hinit : I .init) (hr : Run Step .init es a) (hC : Run.EveryStep Step C .init es)
    (hasleep : a.sys.Asleep t) :
    level a = true ↔ Run.total step? (slept t) .init es % p.period < p.onTicks.toNat := by
  have heval (a : App) (e : AppEvent) (a' : App) : a.Step e a' ∧ C a e → a.step? e = some a' :=
    fun hs => Run.Guarded.step?_eq_some.mpr hs.1
  have hphase := Run.invariant_total (f := asked t) (P := fun a m => I a ∧
    p.Phase (level a) (a.sys.remaining t) m (a.todo (some t))) heval ?_ (hr.of_everyStep hC) ?_
  · have hpos : 0 < a.sys.remaining t := by
      rw [Sys.remaining, if_pos hasleep]
      exact delayTicks_pos _
    exact hphase.2.level_iff hpos (slept_add_remaining hr t)
  · rintro a e a' m ⟨ha, hp⟩ ⟨hs, hCe⟩
    obtain ⟨ha', hlevel⟩ := hstep a e a' ha hs hCe
    exact ⟨ha', (hI a ha).phase_step hs hcode hlevel hp⟩
  · refine ⟨hinit, ?_⟩
    have htodo : App.init.todo (some t) = p.code := hcode.symm
    rw [htodo, remaining_init]
    exact .begin (Nat.zero_mod _)

theorem drivenLevel_of_nil {p : Blinker} {b : Bool} (hl : a.todo a.active = []) :
    drivenLevel p t a .instr b = b := by
  rw [drivenLevel]
  split_ifs with hc
  · rw [← hc.2, hl]
    rfl
  · rfl

theorem drivenLevel_of_cons {p : Blinker} {b : Bool} {i : AppInstr} {l : List AppInstr}
    (hl : a.todo a.active = i :: l) :
    drivenLevel p t a .instr b = if a.active = some t then (p.drives i).getD b else b := by
  rw [drivenLevel]
  by_cases hc : a.active = some t
  · rw [if_pos ⟨rfl, hc⟩, if_pos hc, ← hc, hl]
    rfl
  · rw [if_neg fun h => hc h.2, if_neg hc]

theorem drivenLevel_of_none {p : Blinker} {b : Bool} {i : AppInstr} {l : List AppInstr}
    (hl : a.todo a.active = i :: l) (hd : p.drives i = none) :
    drivenLevel p t a .instr b = b := by
  rw [drivenLevel_of_cons hl, hd, Option.getD_none, ite_self]

/-- An instruction that is no call belongs to a thread. -/
theorem Inv.exists_mem_loopCode (h : a.Inv) {i : AppInstr} {l : List AppInstr}
    (hl : a.todo a.active = i :: l) (hcall : ∀ ev, i ≠ .call ev) :
    ∃ t, a.active = some t ∧ i ∈ loopCode (some t) := by
  rcases hc : a.active with _ | t
  · rw [hc] at hl
    obtain ⟨ev, rfl⟩ := (hl ▸ h.main).exists_call
    exact absurd rfl (hcall ev)
  · rw [hc] at hl
    exact ⟨t, rfl, h.mem_loopCode hl⟩

/-! ### The two loops -/

/-- `Blinky_Main`. -/
def blinky : Blinker where
  on := ledOn
  onTicks := 10
  off := ledOff
  offTicks := 20
  drives
    | .storeA level => some level
    | _ => none
  call_notMem_on ev := by simp [ledOn]
  call_notMem_off ev := by simp [ledOff]
  drives_call ev := rfl
  drives_on := by decide
  drives_off := by decide
  exists_on := by decide
  exists_off := by decide
  onTicks_ne := by decide
  offTicks_ne := by decide

/-- `TogglePC3_Main`. -/
def togglePC3 : Blinker where
  on := PinCall.code ⟨.pc3, true⟩
  onTicks := 20
  off := PinCall.code ⟨.pc3, false⟩
  offTicks := 40
  drives
    | .storeC pinCall => if pinCall.pin = .pc3 then some pinCall.level else none
    | _ => none
  call_notMem_on ev := by simp [PinCall.code]
  call_notMem_off ev := by simp [PinCall.code]
  drives_call ev := rfl
  drives_on := by decide
  drives_off := by decide
  exists_on := by decide
  exists_off := by decide
  onTicks_ne := by decide
  offTicks_ne := by decide

/-! ### The LED -/

/-- Only `Blinky_Main` writes port A. -/
theorem eq_blinkyThread_of_mem {level : Bool} (h : .storeA level ∈ loopCode (some t)) :
    t = blinkyThread := by
  match t, h with
  | .idleThread, h => simp [loopCode, idleThreadMain, osOnIdle, PinCall.code] at h
  | .thread 0, _ => rfl
  | .thread 1, h => simp [loopCode, togglePC3Main, PinCall.code] at h
  | .thread (n + 2), h => cases h

theorem Inv.led_step (h : a.Inv) (hs : a.Step e a') :
    a'.portA.getLsbD 5 = drivenLevel blinky blinkyThread a e (a.portA.getLsbD 5) := by
  cases hs.moves with
  | loop hl => rw [drivenLevel_of_nil hl]; rfl
  | call hl => rw [drivenLevel_of_none hl rfl]; rfl
  | sysTick | pendSV => rfl
  | @instr i l a' hl hcall ha' =>
    cases i with
    | call ev => exact absurd rfl (hcall ev)
    | storeA level =>
      obtain ⟨t, hc, hmem⟩ := h.exists_mem_loopCode hl hcall
      obtain rfl := eq_blinkyThread_of_mem hmem
      obtain rfl := Except.ok.inj ha'
      rw [drivenLevel_of_cons hl, if_pos hc]
      change (if level then _ else _ : BitVec 32).getLsbD 5 = level
      cases level <;> simp
    | _ =>
      obtain rfl := Except.ok.inj ha'
      rw [drivenLevel_of_none hl rfl]
      rfl

/-- **The LED blinks.** In every run, with exceptions taken between any two steps and any
switches, while `Blinky_Main` sleeps the LED is on in the first ten ticks that it has slept of every
thirty. -/
theorem led_blinks (hr : Run Step .init es a) (hasleep : a.sys.Asleep blinkyThread) :
    a.portA.getLsbD 5 = true ↔ Run.total step? (slept blinkyThread) .init es % 30 < 10 :=
  level_iff_slept blinky (fun a => a.portA.getLsbD 5) (C := fun _ _ => True) rfl (fun _ => id)
    (fun _ _ _ ha hs _ => ⟨ha.step hs, ha.led_step hs⟩) inv_init hr
    (.of_forall_mem fun _ _ _ => trivial) hasleep

/-- `Blinky_Main` has called `OS_msDelay` and been found asleep by one tick. -/
theorem led_blinks_one : ∃ a, Run Step .init
      [.instr, .instr, .instr, .pendSV, .instr, .sysTick, .instr, .instr, .sysTick] a ∧
    a.portA.getLsbD 5 = true := by
  have hrun : (Run.eval step? .init
      [.instr, .instr, .instr, .pendSV, .instr, .sysTick, .instr, .instr, .sysTick]).any
        (fun a => decide (a.sys.Asleep blinkyThread)) = true := by decide +kernel
  have hslept : Run.total step? (slept blinkyThread) .init
      [.instr, .instr, .instr, .pendSV, .instr, .sysTick, .instr, .instr, .sysTick] = 1 := by
    decide +kernel
  obtain ⟨a, hr, h⟩ := Run.Guarded.exists_run_of_any hrun
  exact ⟨a, hr, (led_blinks hr (of_decide_eq_true h)).mpr (by rw [hslept]; decide)⟩

end App

end LiteRTOS
