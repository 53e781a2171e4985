import LiteRTOS.OS.Delay

/-!
# Longer delays and shorter ones

Of two delays that the same thread might ask for in the same state, the one of fewer ticks ends no
later, whatever the other threads do afterwards. `OS_msDelay 0` is an exception: `OS_Tick` takes
one off the counter before it compares it with zero, so that a counter of zero wraps around and
the delay lasts for `2^32` ticks.

## Main definitions

* `ticksToGo`: the number of ticks that a counter stands for.
* `Sys.ticksUntilReady`: the number of ticks in a run after which a thread is ready.
* `Sys.EndsNoLater`: one state lets a thread wake no later than another.

## Main results

* `Sys.Inv.ticksUntilReady_eq`: a sleeping thread wakes with the tick that its counter stands for.
* `delay_monotone_iff`: delays are ordered as their numbers of ticks but for the delay of none.
-/

namespace LiteRTOS

open Kernel

/-- The number of ticks after which a thread wakes whose counter is at `c`. -/
def ticksToGo (c : ℕ) : ℕ := if c = 0 then 2 ^ 32 else c

/-- The number of SysTick steps among the steps `es` from `s` up to the first state in which the
bit of `t` is in `OS_ReadySet`, if there is such a state. -/
def Sys.ticksUntilReady (t : TcbPtr) : Sys → List Event → Option ℕ
  | s, [] => if s.kernel.InMask s.kernel.osReadySet t then some 0 else none
  | s, e :: es =>
    if s.kernel.InMask s.kernel.osReadySet t then some 0
    else (s.step? e).bind fun s' =>
      (ticksUntilReady t s' es).map fun c => if e = .sysTick then c + 1 else c

/-- Let any steps follow that are possible from both states, ticks and steps of other threads
than `t`. If `t` is ready in the run from `s₂` after some number of ticks, it is ready in the run
from `s₁` after no more. -/
def Sys.EndsNoLater (t : TcbPtr) (s₁ s₂ : Sys) : Prop :=
  ∀ es s₁' s₂', Run Sys.Step s₁ es s₁' → Run Sys.Step s₂ es s₂' →
    Run.EveryStep Sys.Step (fun s e => ¬s.Calls t e) s₁ es →
    Run.EveryStep Sys.Step (fun s e => ¬s.Calls t e) s₂ es →
    ∀ b, s₂.ticksUntilReady t es = some b → ∃ a ≤ b, s₁.ticksUntilReady t es = some a

variable {s s' s₁ s₂ : Sys} {e : Event} {es : List Event} {t : TcbPtr} {i c : ℕ}

theorem Sys.ticksUntilReady_of_ready (h : s.kernel.InMask s.kernel.osReadySet t)
    (es : List Event) : s.ticksUntilReady t es = some 0 := by
  cases es <;> exact if_pos h

theorem Sys.ticksUntilReady_cons (h : ¬s.kernel.InMask s.kernel.osReadySet t)
    (hs : s.Step e s') (es : List Event) : s.ticksUntilReady t (e :: es) =
      (s'.ticksUntilReady t es).map fun c => if e = .sysTick then c + 1 else c := by
  rw [ticksUntilReady, if_neg h, step?_of_step hs]
  rfl

/-- A sleeping thread is ready after the number of ticks that its counter stands for, and not
before. -/
theorem Sys.Inv.ticksUntilReady_eq (h : s.Inv) (hr : Run Sys.Step s es s')
    (hw : s.kernel.Waits t i c) : s.ticksUntilReady t es =
      if ticksToGo c ≤ es.count .sysTick then some (ticksToGo c) else none := by
  induction hr generalizing c with
  | nil s =>
    have hpos : ¬ticksToGo c ≤ 0 := by
      rw [ticksToGo]
      split_ifs with hc <;> omega
    rw [ticksUntilReady, if_neg (hw.isDelayed h.toTable).2, List.count_nil, if_neg hpos]
  | @cons s s₁ s' e es hs hr ih =>
    rw [ticksUntilReady_cons (hw.isDelayed h.toTable).2 hs]
    by_cases he : e = .sysTick
    · subst he
      have hone (x : ℕ) : ((if x ≤ es.count .sysTick then some x else none).map fun c =>
          if Event.sysTick = .sysTick then c + 1 else c) =
          if x + 1 ≤ es.count .sysTick + 1 then some (x + 1) else none := by
        simp only [if_true, Nat.add_le_add_iff_right]
        split_ifs <;> rfl
      rw [List.count_cons_self]
      -- the counter wraps around, comes to zero or goes on
      obtain rfl | rfl | ⟨c, rfl, hc⟩ : c = 0 ∨ c = 1 ∨ ∃ c', c = c' + 1 ∧ c' ≠ 0 := by
        rcases c with _ | _ | c
        · exact Or.inl rfl
        · exact Or.inr (Or.inl rfl)
        · exact Or.inr (Or.inr ⟨c + 1, rfl, Nat.succ_ne_zero c⟩)
      · rw [ih (h.step hs) (h.waits_tick_zero hs hw), hone]
        rfl
      · have hready := ((h.woken_tick hs hw).isReady (h.step hs).toTable).1
        rw [ticksUntilReady_of_ready hready]
        simp [ticksToGo]
      · rw [ih (h.step hs) (h.waits_tick hs hw hc), hone]
        simp only [ticksToGo, if_neg hc, if_neg (Nat.succ_ne_zero c)]
    · rw [List.count_cons_of_ne he, ih (h.step hs) (h.waits_step hs hw he)]
      simp [he]

/-- A shorter delay that is not the delay of no ticks ends no later. -/
theorem Sys.Inv.endsNoLater {j d : ℕ} (h₁ : s₁.Inv) (h₂ : s₂.Inv) (hw₁ : s₁.kernel.Waits t i d)
    (hw₂ : s₂.kernel.Waits t j c) (hd : d ≠ 0) (hdc : d ≤ c) : Sys.EndsNoLater t s₁ s₂ := by
  intro es s₁' s₂' hr₁ hr₂ _ _ b hb
  have hc : c ≠ 0 := by omega
  rw [h₂.ticksUntilReady_eq hr₂ hw₂, ticksToGo, if_neg hc] at hb
  split_ifs at hb with hle
  obtain rfl := Option.some.inj hb
  refine ⟨d, hdc, ?_⟩
  rw [h₁.ticksUntilReady_eq hr₁ hw₁, ticksToGo, if_neg hd, if_pos (hdc.trans hle)]

/-- The delay of no ticks ends later than any other. -/
theorem Sys.Inv.not_endsNoLater {j : ℕ} (h₁ : s₁.Inv) (h₂ : s₂.Inv) (hw₁ : s₁.kernel.Waits t i 0)
    (hw₂ : s₂.kernel.Waits t j c) (hc : c ≠ 0) (hlt : c < 2 ^ 32) :
    ¬Sys.EndsNoLater t s₁ s₂ := by
  intro hmono
  obtain ⟨s₁', hr₁⟩ := h₁.exists_run_ticks c
  obtain ⟨s₂', hr₂⟩ := h₂.exists_run_ticks c
  have hcalls : ∀ n, Event.delay n ∉ List.replicate c .sysTick := by simp
  have hb : s₂.ticksUntilReady t (List.replicate c .sysTick) = some c := by
    rw [h₂.ticksUntilReady_eq hr₂ hw₂, ticksToGo, if_neg hc, List.count_replicate_self,
      if_pos (le_refl c)]
  obtain ⟨a, -, ha⟩ := hmono _ _ _ hr₁ hr₂ (Sys.everyStep_not_calls t hcalls s₁)
    (Sys.everyStep_not_calls t hcalls s₂) c hb
  rw [h₁.ticksUntilReady_eq hr₁ hw₁, ticksToGo, if_pos rfl, List.count_replicate_self,
    if_neg (Nat.not_le.mpr hlt)] at ha
  cases ha

/-- **Delays are ordered as their numbers of ticks but for the delay of none.** Let the current
thread `t` call `OS_msDelay` in a reachable state, with `n` or with `m` ticks, `n ≤ m`. The first
delay ends no later than the second exactly if `n` is not zero or both are. -/
theorem delay_monotone_iff {es₀ : List Event} {n m : BitVec 32} (hr₀ : Run Sys.Step .init es₀ s)
    (hcurr : s.kernel.osCurr = some t) (hnm : n ≤ m) (hcall₁ : s.Step (.delay n) s₁)
    (hcall₂ : s.Step (.delay m) s₂) : Sys.EndsNoLater t s₁ s₂ ↔ n ≠ 0 ∨ m = 0 := by
  have h := Sys.inv_of_run hr₀
  obtain ⟨i, hw₁⟩ := h.waits_of_delay hcall₁ hcurr
  obtain ⟨j, hw₂⟩ := h.waits_of_delay hcall₂ hcurr
  have hne (v : BitVec 32) (hv : v ≠ 0) : v.toNat ≠ 0 := fun h0 => hv (BitVec.eq_of_toNat_eq h0)
  by_cases hn : n = 0
  · subst hn
    by_cases hm : m = 0
    · subst hm
      obtain rfl := hcall₁.unique hcall₂
      exact ⟨fun _ => Or.inr rfl, fun _ es _ _ _ _ _ _ b hb => ⟨b, le_refl b, hb⟩⟩
    · have hnot := (h.step hcall₁).not_endsNoLater (h.step hcall₂) hw₁ hw₂ (hne m hm) m.isLt
      exact iff_of_false hnot (not_or_intro (fun h0 => h0 rfl) hm)
  · have hle := (h.step hcall₁).endsNoLater (h.step hcall₂) hw₁ hw₂ (hne n hn) hnm
    exact iff_of_true hle (Or.inl hn)

/-- A thread that asks for one tick or for two. -/
theorem delay_monotone_one_two : ∃ s s₁ s₂,
    Run Sys.Step .init [.start (.thread 7) 3, .run, .pendSV] s ∧
    s.kernel.osCurr = some (.thread 7) ∧ s.Step (.delay 1) s₁ ∧ s.Step (.delay 2) s₂ ∧
    Sys.EndsNoLater (.thread 7) s₁ s₂ := by
  have hrun : (Sys.init.run? [.start (.thread 7) 3, .run, .pendSV]).any (fun s =>
      decide (s.kernel.osCurr = some (.thread 7)) && (s.step? (.delay 1)).any fun _ =>
        (s.step? (.delay 2)).any fun _ => true) = true := by decide +kernel
  obtain ⟨s, hs, h⟩ := Sys.exists_run_of_any hrun
  obtain ⟨hcurr, h⟩ := Bool.and_eq_true_iff.mp h
  obtain ⟨s₁, hcall₁, h⟩ := Sys.exists_step_of_any h
  obtain ⟨s₂, hcall₂, -⟩ := Sys.exists_step_of_any h
  have hcurr' := of_decide_eq_true hcurr
  exact ⟨s, s₁, s₂, hs, hcurr', hcall₁, hcall₂,
    (delay_monotone_iff hs hcurr' (by decide) hcall₁ hcall₂).mpr (Or.inl (by decide))⟩

/-- After one tick a delay of one tick is over, and a delay of no ticks is not. -/
theorem delay_zero_outlasts_one : ∃ es s s₁ s₂, Run Sys.Step .init es s ∧
    s.kernel.osCurr = some (.thread 7) ∧ s.Step (.delay 0) s₁ ∧ s.Step (.delay 1) s₂ ∧
    s₁.ticksUntilReady (.thread 7) [.sysTick] = none ∧
    s₂.ticksUntilReady (.thread 7) [.sysTick] = some 1 ∧
    ¬Sys.EndsNoLater (.thread 7) s₁ s₂ := by
  have hrun : (Sys.init.run? [.start (.thread 7) 3, .run, .pendSV]).any (fun s =>
      decide (s.kernel.osCurr = some (.thread 7)) && (s.step? (.delay 0)).any fun s₁ =>
        (s.step? (.delay 1)).any fun s₂ =>
          decide (s₁.ticksUntilReady (.thread 7) [.sysTick] = none) &&
          decide (s₂.ticksUntilReady (.thread 7) [.sysTick] = some 1)) = true := by decide +kernel
  obtain ⟨s, hs, h⟩ := Sys.exists_run_of_any hrun
  obtain ⟨hcurr, h⟩ := Bool.and_eq_true_iff.mp h
  obtain ⟨s₁, hcall₁, h⟩ := Sys.exists_step_of_any h
  obtain ⟨s₂, hcall₂, h⟩ := Sys.exists_step_of_any h
  simp only [Bool.and_eq_true, decide_eq_true_eq] at hcurr h
  obtain ⟨hnone, hone⟩ := h
  refine ⟨_, s, s₁, s₂, hs, hcurr, hcall₁, hcall₂, hnone, hone, fun hmono => ?_⟩
  have hinv := Sys.inv_of_run hs
  obtain ⟨s₁', hr₁⟩ := (hinv.step hcall₁).exists_run_ticks 1
  obtain ⟨s₂', hr₂⟩ := (hinv.step hcall₂).exists_run_ticks 1
  have hcalls : ∀ n, Event.delay n ∉ [Event.sysTick] := by simp
  obtain ⟨a, -, ha⟩ := hmono _ _ _ hr₁ hr₂ (Sys.everyStep_not_calls _ hcalls s₁)
    (Sys.everyStep_not_calls _ hcalls s₂) 1 hone
  rw [List.replicate_one, hnone] at ha
  cases ha

end LiteRTOS
