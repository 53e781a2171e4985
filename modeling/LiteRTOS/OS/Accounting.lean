import LiteRTOS.Library.Total
import LiteRTOS.OS.Delay

/-!
# The balance of the delays

What the threads ask for with `OS_msDelay` is set against the ticks that find them asleep. A delay
of `n` ticks asks for `n`, and one of no ticks for `2^32`, since `OS_Tick` decrements the counter
before it compares it to zero. In every run the ticks a thread has slept and those it has still to
sleep are together what it has asked for, and each of its calls has been followed by one wake-up,
up to the one it may still wait for.

## Main definitions

* `delayTicks`: the ticks that a counter takes to its end.
* `Sys.Asleep`: the bit of a thread is in `OS_DelayedSet`.
* `Sys.Sleep`: what a step does to the sleep of a thread.
* `Sys.asked`, `Sys.slept`, `Sys.calls`, `Sys.wakes`: the quantities.

## Main results

* `Sys.Inv.sleep`: every step is of one of the kinds of `Sys.Sleep`.
* `delays_balance`: the balance in every run.
-/

namespace LiteRTOS

open Kernel

/-- The number of decrements that bring the counter to zero, at least one. -/
def delayTicks (n : BitVec 32) : ℕ := if n = 0 then 2 ^ 32 else n.toNat

theorem delayTicks_pos (n : BitVec 32) : 0 < delayTicks n := by
  rw [delayTicks]
  split_ifs with h
  · decide
  · exact Nat.pos_of_ne_zero fun h0 => h (BitVec.eq_of_toNat_eq h0)

theorem delayTicks_eq {n : BitVec 32} {c : ℕ} (h : n.toNat = c) :
    delayTicks n = if c = 0 then 2 ^ 32 else c := by
  have hiff : n = 0 ↔ c = 0 := by
    rw [← h, ← BitVec.toNat_inj]
    rfl
  simp only [delayTicks, hiff, h]

namespace Sys

/-- The bit of the thread `t` is in `OS_DelayedSet`. -/
def Asleep (s : Sys) (t : TcbPtr) : Prop := s.kernel.InMask s.kernel.osDelayedSet t

instance (s : Sys) (t : TcbPtr) : Decidable (s.Asleep t) :=
  inferInstanceAs (Decidable (s.kernel.InMask _ t))

instance (s : Sys) (t : TcbPtr) (e : Event) : Decidable (s.Calls t e) :=
  match e with
  | .delay n => decidable_of_iff (s.kernel.osCurr = some t) ⟨fun h => ⟨h, n, rfl⟩, And.left⟩
  | .start .. | .run | .sysTick | .pendSV => .isFalse fun ⟨_, _, h⟩ => nomatch h

/-! ### The quantities -/

/-- The ticks that `t` has still to sleep. -/
def remaining (s : Sys) (t : TcbPtr) : ℕ :=
  if s.Asleep t then delayTicks (s.kernel.tcb t).timeOut else 0

/-- The ticks that `t` asks for in a step. -/
def asked (t : TcbPtr) (s : Sys) : Event → ℕ
  | .delay n => if s.kernel.osCurr = some t then delayTicks n else 0
  | _ => 0

/-- The ticks in a step that find `t` asleep. -/
def slept (t : TcbPtr) (s : Sys) (e : Event) : ℕ := if e = .sysTick ∧ s.Asleep t then 1 else 0

/-- The calls of `OS_msDelay` by `t` in a step. -/
def calls (t : TcbPtr) (s : Sys) (e : Event) : ℕ := if s.Calls t e then 1 else 0

/-- The wake-ups of `t` in a step. -/
def wakes (t : TcbPtr) (s : Sys) (e : Event) : ℕ :=
  (s.step? e).elim 0 fun s' => if s.Asleep t ∧ ¬s'.Asleep t then 1 else 0

variable {s s' : Sys} {e : Event} {es : List Event} {t : TcbPtr} {i c : ℕ} {n : BitVec 32}

theorem asleep_of_waits (h : s.kernel.Waits t i c) : s.Asleep t :=
  inMask_iff.mpr ⟨i, h.delayed, h.entry⟩

theorem exists_waits (h : s.Asleep t) : ∃ i c, s.kernel.Waits t i c := by
  obtain ⟨i, hi, ht⟩ := inMask_iff.mp h
  exact ⟨i, _, ht, hi, rfl⟩

theorem remaining_of_waits (h : s.kernel.Waits t i c) :
    s.remaining t = if c = 0 then 2 ^ 32 else c := by
  rw [remaining, if_pos (asleep_of_waits h), delayTicks_eq h.timeOut]

theorem remaining_of_not (h : ¬s.Asleep t) : s.remaining t = 0 := if_neg h

theorem slept_of_not (h : ¬s.Asleep t) : slept t s e = 0 := if_neg fun hs => h hs.2

theorem slept_of_ne (h : e ≠ .sysTick) : slept t s e = 0 := if_neg fun hs => h hs.1

theorem slept_sysTick (h : s.Asleep t) : slept t s .sysTick = 1 := if_pos ⟨rfl, h⟩

theorem asked_of_not_calls (h : ¬s.Calls t e) : asked t s e = 0 := by
  cases e with
  | delay n => exact if_neg fun hcurr => h ⟨hcurr, n, rfl⟩
  | _ => rfl

theorem wakes_of_step (h : s.Step e s') :
    wakes t s e = if s.Asleep t ∧ ¬s'.Asleep t then 1 else 0 := by
  rw [wakes, step?_of_step h, Option.elim_some]

/-! ### One step -/

/-- What a step does to the sleep of the thread `t`. -/
inductive Sleep (t : TcbPtr) (s : Sys) : Event → Sys → Prop
  | awake {e : Event} {s' : Sys} (h : ¬s.Asleep t) (h' : ¬s'.Asleep t) (hcall : ¬s.Calls t e) :
      Sleep t s e s'
  | call {n : BitVec 32} {s' : Sys} {i : ℕ} (h : ¬s.Asleep t) (hcurr : s.kernel.osCurr = some t)
      (h' : s'.kernel.Waits t i n.toNat) : Sleep t s (.delay n) s'
  | rest {e : Event} {s' : Sys} {i c : ℕ} (h : s.kernel.Waits t i c)
      (h' : s'.kernel.Waits t i c) (hcall : ¬s.Calls t e) (htick : e ≠ .sysTick) : Sleep t s e s'
  | tick {s' : Sys} {i c c' : ℕ} (h : s.kernel.Waits t i c) (h' : s'.kernel.Waits t i c')
      (hc' : c' ≠ 0) (hc : (if c = 0 then 2 ^ 32 else c) = c' + 1) : Sleep t s .sysTick s'
  | wake {s' : Sys} {i : ℕ} (h : s.kernel.Waits t i 1) (h' : ¬s'.Asleep t) : Sleep t s .sysTick s'

theorem Inv.not_asleep_of_woken (h : s.Inv) (hw : s.kernel.Woken t i) : ¬s.Asleep t :=
  (hw.isReady h.toTable).2

/-- A sleeping thread does not call `OS_msDelay`. -/
theorem Inv.not_calls (h : s.Inv) (hs : s.Step e s') (ht : s.Asleep t) : ¬s.Calls t e := by
  rintro ⟨hcurr, n, rfl⟩
  obtain ⟨i, c, hw⟩ := exists_waits ht
  exact hw.not_runnable h.toTable (h.curr hs.enabled.1 t hcurr)

/-- Only the thread that calls `OS_msDelay` falls asleep. -/
theorem Inv.not_asleep (h : s.Inv) (hs : s.Step e s') (ht : ¬s.Asleep t) (hcall : ¬s.Calls t e) :
    ¬s'.Asleep t := by
  intro ht'
  obtain ⟨k₁, hagree, heff⟩ := h.effect hs
  obtain ⟨i, hi, hentry⟩ := inMask_iff.mp ht'
  rw [hagree.osDelayedSet] at hi
  rw [hagree.entry] at hentry
  refine ht ?_
  cases heff with
  | @start t' prio j hprio hunused hfresh =>
    obtain ⟨t'', ht''⟩ := (h.mem_iff i).mp (Or.inr hi)
    rw [addThread_entry_of_some hunused ht''] at hentry
    exact inMask_iff.mpr ⟨i, hi, ht''.trans hentry⟩
  | run => exact inMask_iff.mpr ⟨i, by simpa using hi, by simpa using hentry⟩
  | pendSV => exact inMask_iff.mpr ⟨i, hi, hentry⟩
  | sysTick =>
    rw [resched_osDelayedSet] at hi
    refine inMask_iff.mpr ⟨i, ?_, by simpa using hentry⟩
    exact (Bool.and_eq_true_iff.mp ((BitVec.getLsbD_and ..).symm.trans hi)).1
  | @delay t' j ticks hpend hcurr ht' hj =>
    rw [resched_osDelayedSet] at hi
    rw [resched_entry] at hentry
    have hij : i ≠ j := by
      rintro rfl
      obtain rfl := Option.some.inj (ht'.symm.trans hentry)
      exact hcall ⟨hcurr, _, rfl⟩
    have hi' : (s.kernel.osDelayedSet ||| 1#32 <<< j).getLsbD i = true := hi
    rw [BitMask.getLsbD_insert (BitVec.lt_of_getLsbD hj)] at hi'
    exact inMask_iff.mpr ⟨i, by simpa [hij] using hi', hentry⟩

theorem not_asleep_init : ¬Sys.init.Asleep t := by
  intro ht
  obtain ⟨i, hi, -⟩ := inMask_iff.mp ht
  rw [show Sys.init.kernel.osDelayedSet = 0 from rfl] at hi
  simp at hi

theorem Inv.sleep (h : s.Inv) (hs : s.Step e s') (t : TcbPtr) : Sleep t s e s' := by
  by_cases ht : s.Asleep t
  · obtain ⟨i, c, hw⟩ := exists_waits ht
    by_cases he : e = .sysTick
    · subst he
      match c, hw with
      | 0, hw => exact .tick hw (h.waits_tick_zero hs hw) (by decide) (by simp)
      | 1, hw => exact .wake hw ((h.step hs).not_asleep_of_woken (h.woken_tick hs hw))
      | c + 2, hw => exact .tick hw (h.waits_tick hs hw c.succ_ne_zero) c.succ_ne_zero (by simp)
    · exact .rest hw (h.waits_step hs hw he) (h.not_calls hs ht) he
  · by_cases hcall : s.Calls t e
    · obtain ⟨hcurr, n, rfl⟩ := hcall
      obtain ⟨i, hw⟩ := h.waits_of_delay hs hcurr
      exact .call ht hcurr hw
    · exact .awake ht (h.not_asleep hs ht hcall) hcall

/-- The ticks slept and still to sleep make up for those asked for. -/
theorem Sleep.balance (h : Sleep t s e s') :
    s'.remaining t + slept t s e = s.remaining t + asked t s e := by
  cases h with
  | awake h h' hcall =>
    rw [remaining_of_not h, remaining_of_not h', asked_of_not_calls hcall, slept_of_not h]
  | @call n _ i h hcurr h' =>
    rw [remaining_of_waits h', remaining_of_not h, slept_of_not h, asked, if_pos hcurr,
      delayTicks_eq rfl, Nat.add_comm]
  | rest h h' hcall htick =>
    rw [remaining_of_waits h, remaining_of_waits h', asked_of_not_calls hcall, slept_of_ne htick]
  | tick h h' hc' hc =>
    rw [remaining_of_waits h, remaining_of_waits h', hc, if_neg hc',
      slept_sysTick (asleep_of_waits h)]
    rfl
  | wake h h' =>
    rw [remaining_of_waits h, remaining_of_not h', slept_sysTick (asleep_of_waits h)]
    rfl

/-- A thread falls asleep when it calls `OS_msDelay`, and awakes when it is woken. -/
theorem Sleep.asleep_balance (h : Sleep t s e s') (hs : s.Step e s') :
    (if s'.Asleep t then 1 else 0) + wakes t s e = (if s.Asleep t then 1 else 0) + calls t s e := by
  rw [wakes_of_step hs]
  cases h with
  | awake h h' hcall => simp [calls, h, h', hcall]
  | @call n _ _ h hcurr h' =>
    have hcall : s.Calls t (.delay n) := ⟨hcurr, n, rfl⟩
    simp [calls, h, asleep_of_waits h', hcall]
  | rest h h' hcall _ => simp [calls, asleep_of_waits h, asleep_of_waits h', hcall]
  | tick h h' => simp [calls, Calls, asleep_of_waits h, asleep_of_waits h']
  | wake h h' => simp [calls, Calls, asleep_of_waits h, h']

end Sys

/-! ### Runs -/

variable {s : Sys} {es : List Event}

open Sys in
/-- **Every delay is slept, and every sleep ends with one wake-up.** In a run from the state after
`OS_Init`, let the thread `t` ask for delays, each for the number of ticks it is called with, or
`2^32` if it is called with zero. The sum of these is the number of ticks that have found `t`
asleep and those that its counter has still to go. `t` has been woken as often as it has called
`OS_msDelay`, or once less while it is asleep. -/
theorem delays_balance (hr : Run Sys.Step .init es s) (t : TcbPtr) :
    Run.total step? (slept t) .init es + s.remaining t = Run.total step? (asked t) .init es ∧
    Run.total step? (wakes t) .init es + (if s.Asleep t then 1 else 0) =
      Run.total step? (calls t) .init es := by
  have hstep (s : Sys) (e : Event) (s' : Sys) : s.Step e s' → s.step? e = some s' :=
    step?_of_step
  constructor
  · have hbal := Run.total_balance (Φ := fun s => s.remaining t) (I := Sys.Inv) hstep
      (fun s e s' h hs => ⟨h.step hs, (h.sleep hs t).balance⟩) hr inv_init
    rw [remaining_of_not not_asleep_init, Nat.zero_add] at hbal
    rw [Nat.add_comm, hbal]
  · have hbal := Run.total_balance (Φ := fun s => if s.Asleep t then 1 else 0) (I := Sys.Inv) hstep
      (fun s e s' h hs => ⟨h.step hs, (h.sleep hs t).asleep_balance hs⟩) hr inv_init
    rw [if_neg not_asleep_init, Nat.zero_add] at hbal
    rw [Nat.add_comm, hbal]

open Sys in
/-- After a call with zero, one tick leaves `2^32 - 1` to sleep. -/
theorem delays_balance_zero : ∃ s, Run Sys.Step .init
    [.start (.thread 7) 3, .run, .pendSV, .delay 0, .sysTick] s ∧
    1 + s.remaining (.thread 7) = 2 ^ 32 := by
  have hrun : (Sys.init.run? [.start (.thread 7) 3, .run, .pendSV, .delay 0, .sysTick]).any
      (fun _ => true) = true := by decide +kernel
  obtain ⟨s, hr, -⟩ := Sys.exists_run_of_any hrun
  have hslept : Run.total step? (slept (.thread 7)) .init
      [.start (.thread 7) 3, .run, .pendSV, .delay 0, .sysTick] = 1 := by decide +kernel
  have hasked : Run.total step? (asked (.thread 7)) .init
      [.start (.thread 7) 3, .run, .pendSV, .delay 0, .sysTick] = 2 ^ 32 := by decide +kernel
  exact ⟨s, hr, hslept ▸ hasked ▸ (delays_balance hr (.thread 7)).1⟩

end LiteRTOS
