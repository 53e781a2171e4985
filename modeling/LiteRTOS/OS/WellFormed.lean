import LiteRTOS.OS.System

/-!
# The kernel state stays well formed

The table of threads and the two sets fit together in every state the system reaches
(`Kernel.Table`): an entry of `OS_Thread` stands at its priority, and `OS_ReadySet` and
`OS_DelayedSet` partition the priorities that are taken. On top of it, a pending PendSV has a
thread to switch to that can run, and so can the current thread when no switch is pending
(`Kernel.WellFormed`).

The state after `OS_Sched` is well formed as soon as the table is and a switch that was pending
before has a target that can run (`Kernel.Table.wellFormed_resched`). Since all steps but two end
with `OS_Sched`, it remains to see what each of them does to the table.

## Main definitions

* `Kernel.Registered`, `Kernel.Table`, `Kernel.Runnable`, `Kernel.WellFormed`.
* `Kernel.Effect`: what each kind of step does to the variables of the scheduler.
* `Sys.Inv`: the kernel is well formed, and the table holds the started threads.

## Main results

* `Sys.Inv.exists_step`, `Sys.Inv.effect`: a step that may take place does not fault and has its
  effect.
* `Sys.Inv.step`, `Sys.Inv.run`: the invariant along steps and runs.
* `kernel_wellFormed`: well-formedness of every reachable state.
-/

namespace LiteRTOS

namespace Kernel

/-- The threads in the table are at their priorities, and the two sets partition the priorities
from `1` on that are taken. -/
structure Registered (k : Kernel) : Prop where
  prio_eq : ∀ p t, k.entry p = some t → (k.tcb t).prio.toNat = p
  disjoint : ∀ i, ¬(k.osReadySet.getLsbD i = true ∧ k.osDelayedSet.getLsbD i = true)
  mem_iff : ∀ i, k.osReadySet.getLsbD i = true ∨ k.osDelayedSet.getLsbD i = true ↔
    ∃ t, k.entry (i + 1) = some t

/-- The table of threads is in order, with the idle thread on the priority `0`. -/
structure Table (k : Kernel) : Prop extends k.Registered where
  idle : k.entry 0 = some .idleThread

/-- `t` is the idle thread or a thread of `OS_ReadySet`. -/
def Runnable (k : Kernel) (t : TcbPtr) : Prop :=
  t = .idleThread ∨ ∃ i, k.osReadySet.getLsbD i = true ∧ k.entry (i + 1) = some t

/-- The table is in order, the target of a pending switch can run, and without a pending switch
the current thread can. -/
structure WellFormed (k : Kernel) : Prop extends k.Table where
  next : k.pendSV = true → ∃ t, k.osNext = some t ∧ k.Runnable t
  curr : k.pendSV = false → ∀ t, k.osCurr = some t → k.Runnable t

variable {k k' : Kernel}

theorem Runnable.mono {t : TcbPtr} (h : k.Runnable t) (hentry : ∀ p, k'.entry p = k.entry p)
    (hready : ∀ i, k.osReadySet.getLsbD i = true → k'.osReadySet.getLsbD i = true) :
    k'.Runnable t := by
  rcases h with h | ⟨i, hi, ht⟩
  · exact Or.inl h
  · exact Or.inr ⟨i, hready i hi, (hentry _).trans ht⟩

theorem Agree.runnable (h : k.Agree k') {t : TcbPtr} (ht : k.Runnable t) : k'.Runnable t :=
  ht.mono (fun p => (h.entry p).symm) fun _ hi => h.osReadySet ▸ hi

theorem Agree.table (h : k.Agree k') (hk : k.Table) : k'.Table where
  idle := h.entry 0 ▸ hk.idle
  prio_eq p t ht := h.tcb ▸ hk.prio_eq p t ((h.entry p).trans ht)
  disjoint := h.osReadySet ▸ h.osDelayedSet ▸ hk.disjoint
  mem_iff i := by
    rw [← h.osReadySet, ← h.osDelayedSet, ← h.entry]
    exact hk.mem_iff i

theorem Agree.wellFormed (h : k.Agree k') (hk : k.WellFormed) : k'.WellFormed where
  toTable := h.table hk.toTable
  next hp := by
    obtain ⟨t, ht, hrun⟩ := hk.next (h.pendSV.trans hp)
    exact ⟨t, h.osNext ▸ ht, h.runnable hrun⟩
  curr hp t ht := h.runnable (hk.curr (h.pendSV.trans hp) t (h.osCurr.trans ht))

namespace Registered

variable (hk : k.Registered)

include hk

/-- A thread stands at one place of the table. -/
theorem entry_injective {p q : ℕ} {t : TcbPtr} (hp : k.entry p = some t) (hq : k.entry q = some t) :
    p = q :=
  (hk.prio_eq p t hp).symm.trans (hk.prio_eq q t hq)

theorem exists_of_ready {i : ℕ} (hi : k.osReadySet.getLsbD i = true) :
    ∃ t, k.entry (i + 1) = some t :=
  (hk.mem_iff i).mp (Or.inl hi)

theorem exists_of_delayed {i : ℕ} (hi : k.osDelayedSet.getLsbD i = true) :
    ∃ t, k.entry (i + 1) = some t :=
  (hk.mem_iff i).mp (Or.inr hi)

theorem indexed_osDelayedSet : k.Indexed k.osDelayedSet := fun i hi => by
  obtain ⟨t, ht⟩ := hk.exists_of_delayed hi
  exact ⟨t, ht, hk.prio_eq _ t ht⟩

end Registered

namespace Table

variable (hk : k.Table)

include hk

/-- The idle thread has no bit. -/
theorem ne_idleThread {i : ℕ} {t : TcbPtr} (ht : k.entry (i + 1) = some t) : t ≠ .idleThread := by
  rintro rfl
  exact absurd (hk.entry_injective ht hk.idle) (Nat.succ_ne_zero i)

/-- A runnable thread other than the idle one is on the bit before its priority. -/
theorem ready_of_runnable {i : ℕ} {t : TcbPtr} (ht : k.entry (i + 1) = some t)
    (hrun : k.Runnable t) : k.osReadySet.getLsbD i = true := by
  rcases hrun with h | ⟨j, hj, htj⟩
  · exact absurd h (hk.ne_idleThread ht)
  · have hij : i = j := Nat.succ_injective (hk.entry_injective ht htj)
    rwa [hij]

/-- `OS_Sched` selects a thread that can run. -/
theorem exists_selected : ∃ t, k.selected = some t ∧ k.Runnable t := by
  rw [selected]
  split_ifs with h
  · exact ⟨_, hk.idle, Or.inl rfl⟩
  · have htop := BitMask.getLsbD_top h
    obtain ⟨t, ht⟩ := hk.exists_of_ready htop
    exact ⟨t, ht, Or.inr ⟨_, htop, ht⟩⟩

theorem resched : k.resched.Table where
  idle := by simpa using hk.idle
  prio_eq := by simpa using hk.prio_eq
  disjoint := by simpa using hk.disjoint
  mem_iff := by simpa using hk.mem_iff

/-- After `OS_Sched` the state is well formed if a switch that was pending already has a
runnable target. -/
theorem wellFormed_resched
    (hnext : k.pendSV = true → ∃ t, k.osNext = some t ∧ k.Runnable t) :
    k.resched.WellFormed where
  toTable := hk.resched
  next hp := by
    have hmono (t : TcbPtr) (ht : k.Runnable t) : k.resched.Runnable t :=
      ht.mono (by simp) (by simp)
    rw [resched_osNext]
    split_ifs with hsel
    · rw [resched_pendSV] at hp
      obtain ⟨t, ht, hrun⟩ := hnext (by simpa [hsel] using hp)
      exact ⟨t, ht, hmono t hrun⟩
    · obtain ⟨t, ht, hrun⟩ := hk.exists_selected
      exact ⟨t, ht, hmono t hrun⟩
  curr hp t ht := by
    -- no switch is pending, so that the selected thread is the current one
    rw [resched_pendSV, Bool.or_eq_false_iff] at hp
    have hsel : k.selected = k.osCurr := by simpa using hp.2
    obtain ⟨t', ht', hrun⟩ := hk.exists_selected
    rw [resched_osCurr, ← hsel, ht'] at ht
    rw [← Option.some.inj ht]
    exact hrun.mono (by simp) (by simp)

theorem tickOn : (k.tickOn k.osDelayedSet).Table where
  idle := hk.idle
  prio_eq p t ht := by
    rw [tickOn_prio]
    exact hk.prio_eq p t ht
  disjoint i := by
    simp only [Kernel.tickOn, BitVec.getLsbD_or, BitVec.getLsbD_and, BitVec.getLsbD_not]
    have hdisj := hk.disjoint i
    rintro ⟨hready, hdelayed⟩
    simp only [Bool.or_eq_true, Bool.and_eq_true, Bool.not_eq_true'] at hready hdelayed
    rcases hready with hready | hexp
    · exact hdisj ⟨hready, hdelayed.1⟩
    · simp [hexp] at hdelayed
  mem_iff i := by
    rw [tickOn_entry, ← hk.mem_iff i]
    simp only [Kernel.tickOn, BitVec.getLsbD_or, BitVec.getLsbD_and, BitVec.getLsbD_not,
      Bool.or_eq_true, Bool.and_eq_true, Bool.not_eq_true', decide_eq_true_eq]
    constructor
    · rintro ((h | h) | h)
      · exact Or.inl h
      · exact Or.inr (getLsbD_expired.mp h).1
      · exact Or.inr h.1
    · rintro (h | h)
      · exact Or.inl (Or.inl h)
      · by_cases hexp : (k.expired k.osDelayedSet).getLsbD i = true
        · exact Or.inl (Or.inr hexp)
        · exact Or.inr ⟨h, BitVec.lt_of_getLsbD h, by simpa using hexp⟩

theorem delayThread {t : TcbPtr} {i : ℕ} (hi : k.osReadySet.getLsbD i = true) (ticks : BitVec 32) :
    (k.delayThread t ticks i).Table where
  idle := hk.idle
  prio_eq p s hs := by
    have hprio : ((k.delayThread t ticks i).tcb s).prio = (k.tcb s).prio := by
      simp only [Kernel.delayThread, setTimeOut, Function.update_apply]
      split_ifs with h <;> simp [h]
    rw [hprio]
    exact hk.prio_eq p s hs
  disjoint j := by
    have hi' := BitVec.lt_of_getLsbD hi
    have hdisj := hk.disjoint j
    simp only [Kernel.delayThread, BitMask.getLsbD_erase hi', BitMask.getLsbD_insert hi']
    by_cases hj : j = i
    · simp [hj]
    · simpa [hj] using hdisj
  mem_iff j := by
    have hi' := BitVec.lt_of_getLsbD hi
    refine Iff.trans ?_ (hk.mem_iff j)
    simp only [Kernel.delayThread, BitMask.getLsbD_erase hi', BitMask.getLsbD_insert hi']
    by_cases hj : j = i
    · simp [hj, hi]
    · simp [hj]

end Table

theorem addThread_entry (t : TcbPtr) (prio : BitVec 8) (i : Fin 32) (p : ℕ) :
    (k.addThread t prio i).entry p = if p = i + 1 then some t else k.entry p := by
  have hi := i.isLt
  by_cases hp : p = i + 1
  · have hp' : p < 33 := by omega
    have hidx : (⟨p, hp'⟩ : Fin 33) = i.succ := Fin.ext hp
    rw [if_pos hp, entry, dif_pos hp', hidx]
    exact Function.update_self ..
  · rw [if_neg hp, entry, entry]
    split_ifs with hp'
    · exact Function.update_of_ne (fun h => hp (congrArg Fin.val h)) ..
    · rfl

/-- The entries that exist stay. -/
theorem addThread_entry_of_some {t s : TcbPtr} {prio : BitVec 8} {i : Fin 32} {p : ℕ}
    (hunused : k.entry (i + 1) = none) (hs : k.entry p = some s) :
    (k.addThread t prio i).entry p = some s := by
  rw [addThread_entry, if_neg (ne_of_entry hunused hs), hs]

theorem addThread_getLsbD (t : TcbPtr) (prio : BitVec 8) (i : Fin 32) (j : ℕ) :
    (k.addThread t prio i).osReadySet.getLsbD j = (k.osReadySet.getLsbD j || decide (j = i)) :=
  BitMask.getLsbD_insert i.isLt _ _

/-- A fresh thread on an unused priority keeps the table in order. -/
theorem Table.addThread (hk : k.Table) {t : TcbPtr} {prio : BitVec 8} {i : Fin 32}
    (hprio : prio.toNat = i + 1) (hunused : k.entry (i + 1) = none)
    (hfresh : ∀ p, k.entry p ≠ some t) : (k.addThread t prio i).Table where
  idle := by
    rw [addThread_entry, if_neg (by omega)]
    exact hk.idle
  prio_eq p s hs := by
    rw [addThread_entry] at hs
    simp only [Kernel.addThread, setPrio, Function.update_apply]
    split_ifs at hs with hp
    · rw [if_pos (Option.some.inj hs).symm, hp]
      exact hprio
    · have hst : s ≠ t := fun h => hfresh p (h ▸ hs)
      rw [if_neg hst]
      exact hk.prio_eq p s hs
  disjoint j := by
    change ¬(_ ∧ k.osDelayedSet.getLsbD j = true)
    rw [addThread_getLsbD]
    by_cases hj : j = i
    · rintro ⟨-, hdel⟩
      obtain ⟨t', ht'⟩ := hk.exists_of_delayed hdel
      exact ne_of_entry hunused ht' (congrArg Nat.succ hj)
    · simpa [hj] using hk.disjoint j
  mem_iff j := by
    have hdel : (k.addThread t prio i).osDelayedSet = k.osDelayedSet := rfl
    rw [addThread_getLsbD, addThread_entry, hdel]
    by_cases hj : j = i
    · simp [hj]
    · simpa [hj] using hk.mem_iff j

theorem switch_pendSV : k.switch.pendSV = false := pendSVSet_clearPendSV k.scs

theorem switch_entry (p : ℕ) : k.switch.entry p = k.entry p := rfl

/-! ### What a step does -/

/-- The effect of each kind of step on the variables of the scheduler, with what is known of the
state in which the step may take place. -/
inductive Effect (k : Kernel) : Event → Kernel → Prop
  | start {t : TcbPtr} {prio : BitVec 8} {i : Fin 32} (hprio : prio.toNat = i + 1)
      (hunused : k.entry (i + 1) = none) (hfresh : ∀ p, k.entry p ≠ some t) :
      Effect k (.start t prio) (k.addThread t prio i)
  | run : Effect k .run k.resched
  | sysTick : Effect k .sysTick (k.tickOn k.osDelayedSet).resched
  | pendSV {t : TcbPtr} (hpend : k.pendSV = true) (hnext : k.osNext = some t)
      (hrun : k.Runnable t) : Effect k .pendSV k.switch
  | delay {t : TcbPtr} {i : ℕ} {ticks : BitVec 32} (hpend : k.pendSV = false)
      (hcurr : k.osCurr = some t) (ht : k.entry (i + 1) = some t)
      (hi : k.osReadySet.getLsbD i = true) :
      Effect k (.delay ticks) (k.delayThread t ticks i).resched

theorem Effect.wellFormed {e : Event} (he : k.Effect e k') (hk : k.WellFormed) :
    k'.WellFormed := by
  cases he with
  | @start t prio i hprio hunused hfresh =>
    have hready (s : TcbPtr) (hs : k.Runnable s) : (k.addThread t prio i).Runnable s := by
      rcases hs with hs | ⟨j, hj, hsj⟩
      · exact Or.inl hs
      · exact Or.inr ⟨j, by rw [addThread_getLsbD, hj, Bool.true_or],
          addThread_entry_of_some hunused hsj⟩
    exact
      { toTable := hk.toTable.addThread hprio hunused hfresh
        next := fun hp => (hk.next hp).imp fun t ht => ⟨ht.1, hready t ht.2⟩
        curr := fun hp t ht => hready t (hk.curr hp t ht) }
  | run => exact hk.toTable.wellFormed_resched hk.next
  | sysTick =>
    -- the target of a pending switch stays ready, since a tick only adds ready threads
    refine hk.toTable.tickOn.wellFormed_resched fun hp => ?_
    obtain ⟨t, ht, hrun⟩ := hk.next hp
    refine ⟨t, ht, hrun.mono (fun _ => rfl) fun i hi => ?_⟩
    change (k.osReadySet ||| _).getLsbD i = true
    rw [BitVec.getLsbD_or, hi, Bool.true_or]
  | pendSV _ hnext hrun =>
    refine
      { toTable := { hk with }
        next := fun hp => absurd (switch_pendSV.symm.trans hp) Bool.false_ne_true
        curr := fun _ t' ht' => ?_ }
    obtain rfl := Option.some.inj (hnext.symm.trans ht')
    exact hrun
  | delay hpend _ _ hi =>
    exact (hk.toTable.delayThread hi _).wellFormed_resched fun hp =>
      absurd (hpend.symm.trans hp) Bool.false_ne_true

theorem Effect.entry_eq {e : Event} (he : k.Effect e k') (hstart : e.starts = []) (p : ℕ) :
    k'.entry p = k.entry p := by
  cases he with
  | start => cases hstart
  | run => rw [resched_entry]
  | sysTick => rw [resched_entry, tickOn_entry]
  | pendSV => rw [switch_entry]
  | delay =>
    rw [resched_entry]
    rfl

end Kernel

/-! ### The invariant of the system -/

open Kernel

/-- The kernel is well formed, and its table holds the idle thread and the threads started so
far. -/
structure Sys.Inv (s : Sys) : Prop extends s.kernel.WellFormed where
  entry_of_started : ∀ q ∈ s.started, q.1 ≠ .idleThread ∧ s.kernel.entry q.2.toNat = some q.1
  started_of_entry : ∀ i t, s.kernel.entry (i + 1) = some t →
    ∃ prio, (t, prio) ∈ s.started ∧ prio.toNat = i + 1

variable {s s' : Sys} {e : Event}

/-- A step that starts no thread and leaves the table alone keeps what is known of it. -/
theorem Sys.Inv.of_wellFormed (h : s.Inv) (hk : s'.kernel.WellFormed)
    (hentry : ∀ p, s'.kernel.entry p = s.kernel.entry p) (hstarted : s'.started = s.started) :
    s'.Inv where
  toWellFormed := hk
  entry_of_started q hq := by
    rw [hentry]
    exact h.entry_of_started q (hstarted ▸ hq)
  started_of_entry i t ht := by
    rw [hstarted]
    exact h.started_of_entry i t ((hentry _).symm.trans ht)

/-- The invariant depends only on what scheduling does. -/
theorem Sys.Inv.of_agree {k : Kernel} (h : s.Inv) (hk : k.Agree s.kernel) :
    Sys.Inv ⟨k, s.started⟩ :=
  h.of_wellFormed (hk.symm.wellFormed h.toWellFormed) hk.entry rfl

/-- What may be started is new to the table. -/
theorem Sys.Inv.new_of_enabled (h : s.Inv) {t : TcbPtr} {prio : BitVec 8}
    (hen : s.Enabled (.start t prio)) :
    ∃ i : Fin 32, prio.toNat = i + 1 ∧ s.kernel.entry (i + 1) = none ∧
      ∀ p, s.kernel.entry p ≠ some t := by
  obtain ⟨hidle, hpos, hle, hnew⟩ := hen
  obtain ⟨i, hi⟩ := exists_prio_eq hpos hle
  refine ⟨i, hi, ?_, ?_⟩
  · rw [Option.eq_none_iff_forall_ne_some]
    intro t' ht'
    obtain ⟨prio', hmem, hprio'⟩ := h.started_of_entry _ t' ht'
    exact (hnew _ hmem).2 (BitVec.eq_of_toNat_eq (hprio'.trans hi.symm))
  · intro p hp
    cases p with
    | zero => exact hidle (Option.some.inj (hp.symm.trans h.idle))
    | succ i =>
      obtain ⟨prio', hmem, -⟩ := h.started_of_entry i t hp
      exact (hnew _ hmem).1 rfl

/-- The thread that may call `OS_msDelay` is on a bit of `OS_ReadySet`. -/
theorem Sys.Inv.ready_of_enabled (h : s.Inv) {ticks : BitVec 32} (hen : s.Enabled (.delay ticks)) :
    ∃ t i, s.kernel.osCurr = some t ∧ s.kernel.entry (i + 1) = some t ∧
      s.kernel.osReadySet.getLsbD i = true := by
  obtain ⟨hp, hnull, hidle⟩ := hen
  obtain ⟨t, hcurr⟩ := Option.ne_none_iff_exists'.mp hnull
  rcases h.curr hp t hcurr with rfl | ⟨i, hi, ht⟩
  · exact absurd hcurr hidle
  · exact ⟨t, i, hcurr, ht, hi⟩

/-- The function that a step runs does not fault and has the effect of the step. -/
theorem Sys.Inv.exec (h : s.Inv) (hen : s.Enabled e) :
    ∃ k' k₁, e.exec s.kernel = .ok k' ∧ k'.Agree k₁ ∧ s.kernel.Effect e k₁ := by
  cases e with
  | start t prio =>
    obtain ⟨i, hprio, hunused, hfresh⟩ := h.new_of_enabled hen
    exact ⟨_, _, osThreadStart_eq t hprio, .refl _, .start hprio hunused hfresh⟩
  | run =>
    obtain ⟨k', hk', hagree⟩ := osRun_agree s.kernel
    exact ⟨k', _, hk', hagree, .run⟩
  | sysTick =>
    obtain ⟨k', hk', hagree, -⟩ := sysTickHandler_agree h.indexed_osDelayedSet
    exact ⟨k', _, hk', hagree, .sysTick⟩
  | pendSV =>
    obtain ⟨t, ht, hrun⟩ := h.next hen
    obtain ⟨k', hk', hagree⟩ := pendSVHandler_agree ht
    exact ⟨k', _, hk', hagree, .pendSV hen ht hrun⟩
  | delay ticks =>
    obtain ⟨t, i, hcurr, ht, hi⟩ := h.ready_of_enabled hen
    obtain ⟨k', hk', hagree⟩ := osMsDelay_agree hcurr (h.prio_eq _ t ht) (BitVec.lt_of_getLsbD hi)
      ticks
    exact ⟨k', _, hk', hagree, .delay hen.1 hcurr ht hi⟩

/-- A step that may take place takes place: no function of the kernel faults. -/
theorem Sys.Inv.exists_step (h : s.Inv) (hen : s.Enabled e) : ∃ s', s.Step e s' := by
  obtain ⟨k', _, hk', -⟩ := h.exec hen
  exact ⟨⟨k', s.started ++ e.starts⟩, hen, hk', rfl⟩

/-- The effect of a step. -/
theorem Sys.Inv.effect (h : s.Inv) (hs : s.Step e s') :
    ∃ k₁, s'.kernel.Agree k₁ ∧ s.kernel.Effect e k₁ := by
  obtain ⟨k', k₁, hk', hagree, heff⟩ := h.exec hs.enabled
  exact ⟨k₁, Except.ok.inj (hk'.symm.trans hs.exec) ▸ hagree, heff⟩

/-- Every step keeps the invariant. -/
theorem Sys.Inv.step (h : s.Inv) (hs : s.Step e s') : s'.Inv := by
  obtain ⟨k₁, hagree, heff⟩ := h.effect hs
  have hwf : s'.kernel.WellFormed := hagree.symm.wellFormed (heff.wellFormed h.toWellFormed)
  by_cases hstart : e.starts = []
  · refine h.of_wellFormed hwf (fun p => ?_) (by rw [hs.started, hstart, List.append_nil])
    rw [hagree.entry, heff.entry_eq hstart]
  cases heff with
  | run | sysTick | pendSV | delay => exact absurd rfl hstart
  | @start t prio i hprio hunused hfresh =>
    have hentry (p : ℕ) : s'.kernel.entry p = if p = i + 1 then some t else s.kernel.entry p := by
      rw [hagree.entry, addThread_entry]
    have hstarted : s'.started = s.started ++ [(t, prio)] := hs.started
    refine { toWellFormed := hwf, entry_of_started := ?_, started_of_entry := ?_ }
    · intro q hq
      rw [hentry]
      rw [hstarted, List.mem_append, List.mem_singleton] at hq
      rcases hq with hq | rfl
      · obtain ⟨hidle, hq'⟩ := h.entry_of_started q hq
        exact ⟨hidle, (if_neg (ne_of_entry hunused hq')).trans hq'⟩
      · exact ⟨hs.enabled.1, if_pos hprio⟩
    · intro j t' ht'
      rw [hentry] at ht'
      rw [hstarted]
      split_ifs at ht' with hj
      · refine ⟨prio, ?_, by omega⟩
        simp [(Option.some.inj ht').symm]
      · obtain ⟨prio', hmem, hprio'⟩ := h.started_of_entry j t' ht'
        exact ⟨prio', List.mem_append_left _ hmem, hprio'⟩

/-- The invariant holds after `OS_Init`. -/
theorem Sys.inv_init : Sys.init.Inv := by
  have hentry (p : ℕ) : Sys.init.kernel.entry p = if p = 0 then some .idleThread else none := by
    by_cases hp : p = 0
    · subst hp
      rfl
    · rw [if_neg hp, entry]
      split_ifs with hp'
      · exact Function.update_of_ne (fun h => hp (congrArg Fin.val h)) ..
      · rfl
  refine
    { idle := rfl
      prio_eq := ?_
      disjoint := fun i h => by
        rw [show Sys.init.kernel.osReadySet = 0 from rfl] at h
        simp at h
      mem_iff := fun i => by
        rw [hentry, show Sys.init.kernel.osReadySet = 0 from rfl,
          show Sys.init.kernel.osDelayedSet = 0 from rfl]
        simp
      next := fun h => absurd h (by decide)
      curr := fun _ t ht => by cases ht
      entry_of_started := fun q hq => by cases hq
      started_of_entry := fun i t ht => by
        rw [hentry, if_neg (Nat.succ_ne_zero i)] at ht
        cases ht }
  intro p t ht
  rw [hentry] at ht
  split_ifs at ht with hp
  rw [hp, ← Option.some.inj ht]
  rfl

/-- The invariant holds along runs. -/
theorem Sys.Inv.run {es : List Event} (h : s.Inv) (hr : Run Sys.Step s es s') : s'.Inv :=
  hr.invariant (fun _ _ _ => Sys.Inv.step) h

/-- Any number of ticks can follow. -/
theorem Sys.Inv.exists_run_ticks (h : s.Inv) (j : ℕ) :
    ∃ s', Run Sys.Step s (List.replicate j .sysTick) s' := by
  induction j generalizing s with
  | zero => exact ⟨s, .nil s⟩
  | succ j ih =>
    obtain ⟨s₁, hs⟩ := h.exists_step (e := .sysTick) trivial
    obtain ⟨s', hr⟩ := ih (h.step hs)
    exact ⟨s', .cons hs hr⟩

theorem Sys.inv_of_run {es : List Event} (hr : Run Sys.Step .init es s) : s.Inv := inv_init.run hr

/-- **No thread is lost or duplicated.** In every state reached from the one after `OS_Init`:

* every entry of `OS_Thread` stands at its priority, and the idle thread and all threads started
  so far are in the table;
* `OS_ReadySet` and `OS_DelayedSet` are disjoint, and together are the priorities in the table;
* while PendSV is pending, `OS_Next` is a registered thread that is idle or ready, not delayed;
* while it is not, `OS_Curr` is null, idle or ready;
* `OS_Sched` selects a thread, every bit that `OS_Tick` visits has its thread, and no step that
  may take place faults: no null entry is followed and `__builtin_clz` is not applied to zero. -/
theorem kernel_wellFormed {es : List Event} (hr : Run Sys.Step .init es s) :
    (∀ p t, s.kernel.entry p = some t → (s.kernel.tcb t).prio.toNat = p) ∧
    s.kernel.entry 0 = some .idleThread ∧
    (∀ q ∈ s.started, s.kernel.entry q.2.toNat = some q.1) ∧
    (∀ i, ¬(s.kernel.osReadySet.getLsbD i = true ∧ s.kernel.osDelayedSet.getLsbD i = true)) ∧
    (∀ i, s.kernel.osReadySet.getLsbD i = true ∨ s.kernel.osDelayedSet.getLsbD i = true ↔
      ∃ t, s.kernel.entry (i + 1) = some t) ∧
    (s.kernel.pendSV = true → ∃ t, s.kernel.osNext = some t ∧
      (∃ p, s.kernel.entry p = some t) ∧ s.kernel.Runnable t ∧
      ∀ i, s.kernel.entry (i + 1) = some t → s.kernel.osDelayedSet.getLsbD i = false) ∧
    (s.kernel.pendSV = false → ∀ t, s.kernel.osCurr = some t → s.kernel.Runnable t) ∧
    (∃ t, s.kernel.selected = some t) ∧
    s.kernel.Indexed s.kernel.osDelayedSet ∧
    ∀ e, s.Enabled e → ∃ s', s.Step e s' := by
  have h := Sys.inv_of_run hr
  refine ⟨h.prio_eq, h.idle, fun q hq => (h.entry_of_started q hq).2, h.disjoint, h.mem_iff, ?_,
    h.curr, h.exists_selected.imp fun _ ht => ht.1, h.indexed_osDelayedSet,
    fun _ => h.exists_step⟩
  intro hp
  obtain ⟨t, ht, hrun⟩ := h.next hp
  refine ⟨t, ht, ?_, hrun, fun i hi => ?_⟩
  · rcases hrun with rfl | ⟨i, -, hi⟩
    · exact ⟨0, h.idle⟩
    · exact ⟨i + 1, hi⟩
  · have hready := h.ready_of_runnable hi hrun
    exact Bool.eq_false_iff.mpr fun hdelayed => h.disjoint i ⟨hready, hdelayed⟩

/-- A thread asks for a delay of no ticks, and SysTick runs before the switch to the idle
thread. -/
theorem kernel_wellFormed_delay_zero :
    ∃ s, Sys.init.run? [.start (.thread 7) 3, .run, .pendSV, .delay 0, .sysTick] = some s ∧
      s.kernel.pendSV = true ∧ ∃ t, s.kernel.osNext = some t ∧ s.kernel.Runnable t := by
  have hrun : (Sys.init.run? [.start (.thread 7) 3, .run, .pendSV, .delay 0, .sysTick]).any
      (·.kernel.pendSV) = true := by decide +kernel
  obtain ⟨s, hs, hp⟩ := (Option.any_eq_true _ _).mp hrun
  obtain ⟨t, ht, -, hrun, -⟩ := (kernel_wellFormed (Sys.run_of_run? hs)).2.2.2.2.2.1 hp
  exact ⟨s, hs, hp, t, ht, hrun⟩

end LiteRTOS
