import LiteRTOS.OS.Refinement

/-!
# After one tick the kernel is the reference scheduler again

When a tick comes between a delay and the switch it has pended, PendSV may dispatch another thread
than the one that should run, and the kernel is not the reference scheduler any more. It does not
stay so: every SysTick runs `OS_Sched`, which compares the thread to run with `OS_Curr`. So from any
state that the system reaches, by whatever steps, one tick and its switch lead to a state in which
the kernel simulates the reference scheduler, and it goes on doing so as long as the switches are
made before the next event.

The reference state is read off the kernel (`Kernel.statuses`). That is possible right after a
tick only: a thread that has asked for no ticks has its counter at zero until then, which is no
status of the reference.

## Main definitions

* `Kernel.statuses`: the reference state with the statuses of the kernel.

## Main results

* `Kernel.Table.matches_statuses`: the kernel simulates the reference state that is read off it.
* `Kernel.Matches.unique`: it simulates no other one.
* `recovers`: one tick is enough.
-/

namespace LiteRTOS

open FixedPriority (Status)

namespace Kernel

/-- The status of the thread `t` of the bit `i`. -/
def status (k : Kernel) (t : TcbPtr) (i : ℕ) : Status :=
  if k.osReadySet.getLsbD i then .ready else .waiting (k.tcb t).timeOut.toNat.toPNat'

/-- The statuses of the threads in the table. -/
def statuses (k : Kernel) : FixedPriority.State ℕ
  | 0 => none
  | i + 1 => (k.entry (i + 1)).map fun t => k.status t i

variable {k k' : Kernel} {r r' : FixedPriority.State ℕ} {ts : List (TcbPtr × BitVec 8)}

/-- The kernel simulates its statuses if no thread sleeps with its counter at zero. -/
theorem Table.matches_statuses (hk : k.Table) (hpos : ∀ i t, k.entry (i + 1) = some t →
    k.osDelayedSet.getLsbD i = true → (k.tcb t).timeOut ≠ 0) : k.Matches k.statuses where
  zero := rfl
  free i hi := by rw [statuses, hi, Option.map_none]
  status i t ht := by
    refine ⟨k.status t i, by rw [statuses, ht, Option.map_some], ?_⟩
    by_cases hready : k.osReadySet.getLsbD i = true
    · rw [status, if_pos hready]
      exact ⟨ht, hready⟩
    · have hdelayed := ((hk.mem_iff i).mpr ⟨t, ht⟩).resolve_left hready
      have hne : (k.tcb t).timeOut.toNat ≠ 0 := fun hzero =>
        hpos i t ht hdelayed (BitVec.eq_of_toNat_eq hzero)
      rw [status, if_neg hready]
      exact ⟨ht, hdelayed, (PNat.toPNat'_coe (Nat.pos_of_ne_zero hne)).symm⟩

/-- The reference state that the kernel simulates is determined. -/
theorem Matches.unique (hm : k.Matches r) (hm' : k.Matches r') (hk : k.Table) : r = r' := by
  funext p
  rcases p with _ | i
  · rw [hm.zero, hm'.zero]
  rcases ht : k.entry (i + 1) with _ | t
  · rw [hm.free i ht, hm'.free i ht]
  obtain ⟨st, hst, h⟩ := hm.status i t ht
  obtain ⟨st', hst', h'⟩ := hm'.status i t ht
  rw [hst, hst']
  rcases st with _ | n <;> rcases st' with _ | n'
  · rfl
  · exact absurd ⟨Woken.ready h, Waits.delayed h'⟩ (hk.disjoint i)
  · exact absurd ⟨Woken.ready h', Waits.delayed h⟩ (hk.disjoint i)
  · rw [PNat.eq ((Waits.timeOut h).symm.trans (Waits.timeOut h'))]

/-- A thread that still sleeps after a tick has ticks to go. -/
theorem tickOn_timeOut_ne {i : ℕ} {t : TcbPtr} (ht : k.entry (i + 1) = some t)
    (hdelayed : (k.tickOn k.osDelayedSet).osDelayedSet.getLsbD i = true) :
    ((k.tickOn k.osDelayedSet).tcb t).timeOut ≠ 0 := by
  change (k.osDelayedSet &&& ~~~k.expired k.osDelayedSet).getLsbD i = true at hdelayed
  rw [BitVec.getLsbD_and, BitVec.getLsbD_not, Bool.and_eq_true] at hdelayed
  obtain ⟨hi, hexp⟩ := hdelayed
  rw [tickOn_timeOut, if_pos (inMask_iff.mpr ⟨i, hi, ht⟩)]
  intro hzero
  have hbit := (getLsbD_expired_of_entry ht).mpr ⟨hi, hzero⟩
  rw [hbit] at hexp
  simp at hexp

/-- The simulation along the events of the reference scheduler. -/
theorem Settled.run (h : k.Settled ts r) {es : List FixedPriority.Event}
    (hes : ∀ n : ℕ+, .delay n ∈ es → (n : ℕ) < 2 ^ 32) (hr : Run FixedPriority.Step r es r') :
    ∃ k', es.foldlM execEvent k = .ok k' ∧ k'.Settled ts r' := by
  induction hr generalizing k with
  | nil r => exact ⟨k, rfl, h⟩
  | @cons r r₁ r' e es hs hr ih =>
    have hstep : ∃ k₁, execEvent k e = .ok k₁ ∧ k₁.Settled ts r₁ := by
      rcases hs with ⟨hp⟩ | _
      · exact h.delay hp (hes _ List.mem_cons_self)
      · exact h.tick
    obtain ⟨k₁, hk₁, h₁⟩ := hstep
    obtain ⟨k', hk', h'⟩ := ih h₁ fun n hn => hes n (List.mem_cons_of_mem _ hn)
    refine ⟨k', ?_, h'⟩
    rw [List.foldlM_cons, hk₁]
    exact hk'

/-- After a tick and its switch the kernel simulates the statuses that it has then. -/
theorem exists_settled_tick (h : Sys.Inv ⟨k, ts⟩) (hoff : k.pendSV = false) :
    ∃ k', execEvent k .tick = .ok k' ∧
      k'.Settled ts (k.tickOn k.osDelayedSet).resched.statuses := by
  refine exists_settled h hoff (e := .sysTick) trivial rfl (by simp) fun k₁ he => ?_
  cases he with
  | sysTick =>
    refine h.toTable.tickOn.resched.matches_statuses fun i t ht hdelayed => ?_
    rw [resched_entry, tickOn_entry] at ht
    rw [resched_tcb]
    rw [resched_osDelayedSet] at hdelayed
    exact tickOn_timeOut_ne ht hdelayed

/-- PendSV is taken if it is pending. -/
theorem exists_settle (h : Sys.Inv ⟨k, ts⟩) : ∃ k', settle k = .ok k' ∧ Sys.Inv ⟨k', ts⟩ ∧
    k'.pendSV = false ∧ ∀ r, k.Matches r → k'.Matches r := by
  rw [settle]
  by_cases hon : k.pendSV = true
  · rw [if_pos hon]
    obtain ⟨k', k₁, hexec, hagree, heff⟩ := h.exec (e := .pendSV) hon
    have hinv : Sys.Inv ⟨k', ts⟩ :=
      h.step (e := .pendSV) ⟨hon, hexec, (List.append_nil _).symm⟩
    refine ⟨k', hexec, hinv, ?_, fun r hm => ?_⟩
    · rcases heff with _ | _ | _ | _
      exact hagree.pendSV.trans switch_pendSV
    · exact hagree.symm.matches (hm.effect h.toWellFormed heff rfl (by simp) (by simp))
  · rw [if_neg hon]
    exact ⟨k, rfl, h, Bool.eq_false_iff.mpr hon, fun _ hm => hm⟩

end Kernel

open Kernel

/-- **After one tick the kernel is the reference scheduler again.** In any state `s` that the system
reaches, whatever switches have gone to the wrong thread and whatever threads have asked for no
ticks, let a pending PendSV be taken and then one SysTick with the PendSV that it pends. No function
faults, and the kernel implements a reference state; it is the tick of the reference state before,
if `s` simulates one. From there on the kernel implements the reference scheduler along all
events that this allows, each followed by PendSV when it is pending. -/
theorem recovers {es₀ : List Event} {s : Sys} (hr₀ : Run Sys.Step .init es₀ s) :
    ∃ k r, (do execEvent (← settle s.kernel) .tick) = .ok k ∧ k.Implements s.started r ∧
      (∀ r₀, s.kernel.Matches r₀ → r = r₀.tick) ∧
      ∀ es r', (∀ n : ℕ+, .delay n ∈ es → (n : ℕ) < 2 ^ 32) →
        Run FixedPriority.Step r es r' →
        ∃ k', es.foldlM execEvent k = .ok k' ∧ k'.Implements s.started r' := by
  obtain ⟨k₀, hk₀, hinv₀, hoff₀, hm₀⟩ := exists_settle (Sys.inv_of_run hr₀)
  obtain ⟨k, hk, h⟩ := exists_settled_tick hinv₀ hoff₀
  refine ⟨k, _, ?_, h.implements, fun r₀ hr => ?_, fun es r' hes hr => ?_⟩
  · rw [hk₀]
    exact hk
  · obtain ⟨k', hk', h'⟩ := exists_settled hinv₀ hoff₀ (e := .sysTick) trivial rfl (by simp)
      fun _ => (hm₀ r₀ hr).tick
    obtain rfl := Except.ok.inj (hk.symm.trans hk')
    exact h.simulates.unique h'.simulates h.toTable
  · obtain ⟨k', hk', h'⟩ := h.run hes hr
    exact ⟨k', hk', h'.implements⟩

/-- Two threads of the priorities 3 and 2, the first of which asks for one tick. The tick comes
before the switch, so that the second one is dispatched. -/
theorem recovers_two : ∃ s k r, Run Sys.Step .init [.start (.thread 0) 3, .start (.thread 1) 2,
      .run, .pendSV, .delay 1, .sysTick, .pendSV] s ∧
    s.kernel.osCurr = some (.thread 1) ∧ s.kernel.selected = some (.thread 0) ∧
    (do execEvent (← settle s.kernel) .tick) = .ok k ∧ k.Implements s.started r := by
  have hrun : (Sys.init.run? [.start (.thread 0) 3, .start (.thread 1) 2, .run, .pendSV,
      .delay 1, .sysTick, .pendSV]).any (fun s =>
        decide (s.kernel.osCurr = some (.thread 1)) &&
        decide (s.kernel.selected = some (.thread 0))) = true := by decide +kernel
  obtain ⟨s, hr, h⟩ := Sys.exists_run_of_any hrun
  obtain ⟨hcurr, hsel⟩ := Bool.and_eq_true_iff.mp h
  obtain ⟨k, r, hk, himpl, -⟩ := recovers hr
  exact ⟨s, k, r, hr, of_decide_eq_true hcurr, of_decide_eq_true hsel, hk, himpl⟩

end LiteRTOS
