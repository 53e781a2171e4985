import LiteRTOS.Library.FixedPriority
import LiteRTOS.OS.Delay
import Mathlib.Order.Bounds.Image

/-!
# The kernel refines the reference scheduler

When a pended PendSV is taken before the next tick and the next delay, the kernel is the reference
scheduler of `LiteRTOS.Library.FixedPriority` on the priorities `1..32`. The status of a thread is
read off the two masks and its counter (`Kernel.HasStatus`), and the simulation relation says so
for every entry of `OS_Thread` (`Kernel.Matches`). The reference moves with the steps of the
kernel, where starting a thread, `OS_Run` and PendSV do not concern it.

The reference scheduler runs the greatest ready priority at once, whereas the kernel selects it
by the leading zeros of a mask and leaves the switch to PendSV. That the current thread is the
selected one holds between events, after PendSV.

## Main definitions

* `settle`, `execEvent`, `bootKernel`, `execEvents`: an event followed by a pending PendSV, the
  start-up, and both.
* `Kernel.Matches`: the simulation relation on the table.
* `Kernel.Implements`: what the kernel and the reference scheduler have in common.

## Main results

* `Kernel.Settled.delay`, `Kernel.Settled.tick`: the simulation of single events.
* `refines_fixedPriority`: the simulation of all runs.
-/

namespace LiteRTOS

open FixedPriority (Status)

/-! ### Events of the reference scheduler on the kernel -/

/-- PendSV is taken if it is pending. -/
def settle (k : Kernel) : Except Fault Kernel := if k.pendSV then pendSVHandler k else return k

/-- An event: the current thread calls `OS_msDelay`, or SysTick is taken. -/
def execEvent (k : Kernel) : FixedPriority.Event → Except Fault Kernel
  | .delay n => do settle (← osMsDelay (BitVec.ofNat 32 n) k)
  | .tick => do settle (← sysTickHandler k)

/-- `OS_Init`, `OSThread_Start` for each of the threads and `OS_Run`, on zeroed variables. -/
def bootKernel (ts : List (TcbPtr × BitVec 8)) : Except Fault Kernel := do
  let k ← osInit Kernel.reset
  let k ← ts.foldlM (fun k q => osThreadStart q.1 q.2 k) k
  settle (← osRun k)

/-- The start-up with the threads `ts`, and then the events `es`. -/
def execEvents (ts : List (TcbPtr × BitVec 8)) (es : List FixedPriority.Event) :
    Except Fault Kernel := do
  let k ← bootKernel ts
  es.foldlM execEvent k

/-- The thread `t` is the one of the priority `p`, or the idle thread for no priority. -/
def OnPriority (ts : List (TcbPtr × BitVec 8)) : Option ℕ → TcbPtr → Prop
  | some p, t => ∃ prio, (t, prio) ∈ ts ∧ prio.toNat = p
  | none, t => t = .idleThread

/-- The reference state with the threads `ts` all ready. -/
def initialOf (ts : List (TcbPtr × BitVec 8)) : FixedPriority.State ℕ :=
  .initial (ts.map fun q => q.2.toNat)

namespace Kernel

variable {k k' : Kernel} {r : FixedPriority.State ℕ} {t : TcbPtr} {i : ℕ} {e : Event}

/-- The current thread, the two sets and the counters are those of the reference state. -/
structure Implements (k : Kernel) (ts : List (TcbPtr × BitVec 8)) (r : FixedPriority.State ℕ) :
    Prop where
  exists_running : ∃ p, r.IsRunning p
  running : ∀ p, r.IsRunning p → ∃ t, OnPriority ts p t ∧ k.osCurr = some t
  ready : r.ready = (· + 1) '' BitMask.bits k.osReadySet
  delayed : r.waiting = (· + 1) '' BitMask.bits k.osDelayedSet
  timeOut : ∀ t prio n, (t, prio) ∈ ts → r prio.toNat = some (.waiting n) →
    (k.tcb t).timeOut.toNat = n

/-! ### The simulation relation -/

/-- The thread `t` of the bit `i` has the given status. -/
def HasStatus (k : Kernel) (t : TcbPtr) (i : ℕ) : Status → Prop
  | .ready => k.Woken t i
  | .waiting n => k.Waits t i n

/-- The reference state gives every thread of the table the status it has in the kernel. -/
structure Matches (k : Kernel) (r : FixedPriority.State ℕ) : Prop where
  zero : r 0 = none
  free : ∀ i, k.entry (i + 1) = none → r (i + 1) = none
  status : ∀ i t, k.entry (i + 1) = some t → ∃ st, r (i + 1) = some st ∧ k.HasStatus t i st

theorem Agree.hasStatus {st : Status} (h : k.Agree k') (hk : k.HasStatus t i st) :
    k'.HasStatus t i st := by
  cases st with
  | ready => exact h.woken hk
  | waiting n => exact h.waits hk

theorem HasStatus.resched {st : Status} (h : k.HasStatus t i st) : k.resched.HasStatus t i st := by
  cases st with
  | ready => exact Woken.resched h
  | waiting n => exact Waits.resched h

/-- No step but SysTick and the call of `OS_msDelay` by the thread itself changes its status. -/
theorem HasStatus.effect {st : Status} (h : k.HasStatus t i st) (hk : k.WellFormed)
    (he : k.Effect e k') (htick : e ≠ .sysTick)
    (hcall : k.osCurr = some t → ∀ ticks, e ≠ .delay ticks) : k'.HasStatus t i st := by
  cases st with
  | ready => exact Woken.effect h he hcall
  | waiting n => exact Waits.effect h hk he htick

theorem Agree.matches (h : k.Agree k') (hm : k.Matches r) : k'.Matches r where
  zero := hm.zero
  free i hi := hm.free i ((h.entry _).trans hi)
  status i t ht := by
    obtain ⟨st, hst, hk⟩ := hm.status i t ((h.entry _).trans ht)
    exact ⟨st, hst, h.hasStatus hk⟩

/-- `OS_Run` and PendSV do not concern the reference. -/
theorem Matches.effect (hm : k.Matches r) (hk : k.WellFormed) (he : k.Effect e k')
    (hstart : e.starts = []) (htick : e ≠ .sysTick) (hdelay : ∀ ticks, e ≠ .delay ticks) :
    k'.Matches r where
  zero := hm.zero
  free i hi := hm.free i ((he.entry_eq hstart _).symm.trans hi)
  status i t ht := by
    obtain ⟨st, hst, h⟩ := hm.status i t ((he.entry_eq hstart _).symm.trans ht)
    exact ⟨st, hst, h.effect hk he htick fun _ => hdelay⟩

theorem HasStatus.tick {st : Status} (h : k.HasStatus t i st) :
    (k.tickOn k.osDelayedSet).HasStatus t i st.tick := by
  cases st with
  | ready =>
    refine ⟨h.entry, ?_⟩
    change (k.osReadySet ||| _).getLsbD i = true
    rw [BitVec.getLsbD_or, h.ready, Bool.true_or]
  | waiting n =>
    by_cases hn : n = 1
    · subst hn
      exact Waits.tickOn_one h
    · obtain ⟨m, rfl⟩ := PNat.exists_eq_succ_of_ne_one hn
      rw [Status.tick_waiting_add_one]
      exact Waits.tickOn h m.ne_zero

/-- SysTick is a tick of the reference. -/
theorem Matches.tick (hm : k.Matches r) (he : k.Effect .sysTick k') : k'.Matches r.tick := by
  cases he with
  | sysTick =>
    refine ⟨?_, fun i hi => ?_, fun i t ht => ?_⟩
    · rw [FixedPriority.State.tick, hm.zero, Option.map_none]
    · rw [resched_entry, tickOn_entry] at hi
      rw [FixedPriority.State.tick, hm.free i hi, Option.map_none]
    · rw [resched_entry, tickOn_entry] at ht
      obtain ⟨st, hst, h⟩ := hm.status i t ht
      exact ⟨st.tick, by rw [FixedPriority.State.tick, hst, Option.map_some], h.tick.resched⟩

/-- A delay of the current thread is a delay of its priority. -/
theorem Matches.delay {n : ℕ+} (hm : k.Matches r) (hk : k.WellFormed) (hn : (n : ℕ) < 2 ^ 32)
    (he : k.Effect (.delay (BitVec.ofNat 32 n)) k') (hcurr : k.osCurr = some t)
    (ht : k.entry (i + 1) = some t) : k'.Matches (r.delay (i + 1) n) where
  zero := by
    rw [FixedPriority.State.delay, Function.update_of_ne (Nat.succ_ne_zero i).symm]
    exact hm.zero
  free j hj := by
    rw [he.entry_eq rfl] at hj
    rw [FixedPriority.State.delay, Function.update_of_ne (ne_of_entry hj ht).symm]
    exact hm.free j hj
  status j s hs := by
    have hs' : k.entry (j + 1) = some s := (he.entry_eq rfl _).symm.trans hs
    by_cases hij : j = i
    · subst hij
      obtain rfl := Option.some.inj (ht.symm.trans hs')
      refine ⟨.waiting n, Function.update_self .., ?_⟩
      have hw := he.waits_of_delay hk.toTable hcurr ht
      rwa [BitVec.toNat_ofNat, Nat.mod_eq_of_lt hn] at hw
    · obtain ⟨st, hst, h⟩ := hm.status j s hs'
      refine ⟨st, ?_, h.effect hk he (by simp) fun hcurr' => ?_⟩
      · rw [FixedPriority.State.delay, Function.update_of_ne (by omega)]
        exact hst
      · obtain rfl := Option.some.inj (hcurr.symm.trans hcurr')
        exact absurd (Nat.succ_injective (hk.entry_injective hs' ht)) hij

/-- A started thread is ready. -/
theorem Matches.start {prio : BitVec 8} (hm : k.Matches r) (hk : k.WellFormed)
    (he : k.Effect (.start t prio) k') :
    k'.Matches (Function.update r prio.toNat (some .ready)) := by
  cases he with
  | @start _ _ i hprio hunused hfresh =>
    rw [hprio]
    refine ⟨?_, fun j hj => ?_, fun j s hs => ?_⟩
    · rw [Function.update_of_ne (Nat.succ_ne_zero i.val).symm]
      exact hm.zero
    · rw [addThread_entry] at hj
      split_ifs at hj with hij
      rw [Function.update_of_ne hij]
      exact hm.free j hj
    · have hs' := hs
      rw [addThread_entry] at hs
      split_ifs at hs with hij
      · obtain rfl : j = i := Nat.succ_injective hij
        refine ⟨.ready, Function.update_self .., hs', ?_⟩
        rw [addThread_getLsbD]
        simp
      · obtain ⟨st, hst, h⟩ := hm.status j s hs
        have he : k.Effect (.start t prio) (k.addThread t prio i) := .start hprio hunused hfresh
        exact ⟨st, by rw [Function.update_of_ne hij, hst], h.effect hk he (by simp) (by simp)⟩

/-- The ready priorities of the reference are those of `OS_ReadySet`. -/
theorem Matches.ready_eq (hm : k.Matches r) (hk : k.Table) :
    r.ready = (· + 1) '' BitMask.bits k.osReadySet := by
  ext p
  rcases p with _ | i
  · simp [FixedPriority.State.ready, hm.zero]
  · simp only [FixedPriority.State.ready, Set.mem_ofPred_eq, Set.mem_image,
      Nat.add_right_cancel_iff, exists_eq_right, BitMask.mem_bits]
    constructor
    · intro hr
      obtain ⟨t, ht⟩ := Option.ne_none_iff_exists'.mp fun hfree => by simp [hm.free i hfree] at hr
      obtain ⟨st, hst, h⟩ := hm.status i t ht
      obtain rfl := Option.some.inj (hr.symm.trans hst)
      exact h.ready
    · intro hi
      obtain ⟨t, ht⟩ := hk.exists_of_ready hi
      obtain ⟨st, hst, h⟩ := hm.status i t ht
      rcases st with _ | n
      · exact hst
      · exact absurd ⟨hi, Waits.delayed h⟩ (hk.disjoint i)

/-- The waiting priorities of the reference are those of `OS_DelayedSet`. -/
theorem Matches.waiting_eq (hm : k.Matches r) (hk : k.Table) :
    r.waiting = (· + 1) '' BitMask.bits k.osDelayedSet := by
  ext p
  rcases p with _ | i
  · simp [FixedPriority.State.waiting, hm.zero]
  · simp only [FixedPriority.State.waiting, Set.mem_ofPred_eq, Set.mem_image,
      Nat.add_right_cancel_iff, exists_eq_right, BitMask.mem_bits]
    constructor
    · rintro ⟨n, hr⟩
      obtain ⟨t, ht⟩ := Option.ne_none_iff_exists'.mp fun hfree => by simp [hm.free i hfree] at hr
      obtain ⟨st, hst, h⟩ := hm.status i t ht
      obtain rfl := Option.some.inj (hr.symm.trans hst)
      exact h.delayed
    · intro hi
      obtain ⟨t, ht⟩ := hk.exists_of_delayed hi
      obtain ⟨st, hst, h⟩ := hm.status i t ht
      rcases st with _ | n
      · exact absurd ⟨Woken.ready h, hi⟩ (hk.disjoint i)
      · exact ⟨n, hst⟩

/-! ### Between events -/

/-- The kernel between two events: no switch is pending, and the current thread is the selected
one. -/
structure Settled (k : Kernel) (ts : List (TcbPtr × BitVec 8)) (r : FixedPriority.State ℕ) :
    Prop extends Sys.Inv ⟨k, ts⟩ where
  off : k.pendSV = false
  onSelected : k.osCurr = k.selected
  simulates : k.Matches r

variable {ts : List (TcbPtr × BitVec 8)}

theorem isGreatest_priorities (hk : k.osReadySet ≠ 0) :
    IsGreatest ((· + 1) '' BitMask.bits k.osReadySet) (BitMask.top k.osReadySet + 1) :=
  Monotone.map_isGreatest (fun _ _ => Nat.succ_le_succ) (BitMask.isGreatest_top hk)

theorem Settled.exists_running (h : k.Settled ts r) : ∃ p, r.IsRunning p := by
  by_cases hzero : k.osReadySet = 0
  · refine ⟨none, ?_⟩
    change r.ready = ∅
    rw [h.simulates.ready_eq h.toTable, Set.image_eq_empty, Set.eq_empty_iff_forall_notMem]
    intro i hi
    exact BitMask.ne_zero_of_getLsbD hi hzero
  · refine ⟨some (BitMask.top k.osReadySet + 1), ?_⟩
    change IsGreatest r.ready _
    rw [h.simulates.ready_eq h.toTable]
    exact isGreatest_priorities hzero

/-- The running priority of the reference is the one above the highest bit of `OS_ReadySet`, and
its thread is the current one. -/
theorem Settled.curr_of_isRunning (h : k.Settled ts r) {p : ℕ} (hp : r.IsRunning (some p)) :
    ∃ i t, p = i + 1 ∧ k.entry (i + 1) = some t ∧ k.osCurr = some t := by
  have hgreatest : IsGreatest r.ready p := hp
  rw [h.simulates.ready_eq h.toTable] at hgreatest
  obtain ⟨i, hi, -⟩ := hgreatest.1
  have hzero : k.osReadySet ≠ 0 := BitMask.ne_zero_of_getLsbD hi
  obtain ⟨t, ht⟩ := h.exists_of_ready (BitMask.getLsbD_top hzero)
  refine ⟨_, t, hgreatest.unique (isGreatest_priorities hzero), ht, ?_⟩
  rw [h.onSelected, selected, if_neg hzero, ht]

theorem Settled.curr_idle (h : k.Settled ts r) (hp : r.IsRunning none) :
    k.osCurr = some .idleThread := by
  have hempty : r.ready = ∅ := hp
  rw [h.simulates.ready_eq h.toTable, Set.image_eq_empty] at hempty
  have hzero : k.osReadySet = 0 := by
    by_contra hne
    exact hempty.subset (BitMask.isGreatest_top hne).1
  rw [h.onSelected, selected, if_pos hzero, h.idle]

theorem Settled.implements (h : k.Settled ts r) : k.Implements ts r where
  exists_running := h.exists_running
  running p hp := by
    rcases p with _ | p
    · exact ⟨_, rfl, h.curr_idle hp⟩
    · obtain ⟨i, t, rfl, ht, hcurr⟩ := h.curr_of_isRunning hp
      exact ⟨t, h.started_of_entry i t ht, hcurr⟩
  ready := h.simulates.ready_eq h.toTable
  delayed := h.simulates.waiting_eq h.toTable
  timeOut t prio n hq hr := by
    obtain ⟨-, ht⟩ := h.entry_of_started _ hq
    obtain ⟨i, hi⟩ := Nat.exists_eq_succ_of_ne_zero (n := prio.toNat) fun hzero => by
      simp [hzero, h.simulates.zero] at hr
    rw [hi] at hr ht
    obtain ⟨st, hst, hw⟩ := h.simulates.status i t ht
    obtain rfl := Option.some.inj (hr.symm.trans hst)
    exact hw.timeOut

/-- The steps that end with `OS_Sched`. -/
theorem Effect.exists_resched (he : k.Effect e k') (hstart : e.starts = []) (hp : e ≠ .pendSV) :
    ∃ k₀ : Kernel, k₀.pendSV = k.pendSV ∧ k' = k₀.resched := by
  cases he with
  | start => cases hstart
  | run => exact ⟨k, rfl, rfl⟩
  | sysTick => exact ⟨k.tickOn k.osDelayedSet, rfl, rfl⟩
  | pendSV => exact absurd rfl hp
  | @delay t i ticks => exact ⟨k.delayThread t ticks i, rfl, rfl⟩

/-- A step that ends with `OS_Sched`, followed by PendSV if it is pending. -/
theorem exists_settled (h : Sys.Inv ⟨k, ts⟩) (hoff : k.pendSV = false)
    (hen : Sys.Enabled ⟨k, ts⟩ e) (hstart : e.starts = []) (hp : e ≠ .pendSV)
    (hm : ∀ k₁, k.Effect e k₁ → k₁.Matches r) :
    ∃ k', (do settle (← e.exec k)) = .ok k' ∧ k'.Settled ts r := by
  obtain ⟨k₁, k₀', hexec, hagree, heff⟩ := h.exec hen
  have hinv₁ : Sys.Inv ⟨k₁, ts⟩ := h.step ⟨hen, hexec, by simp [hstart]⟩
  have hm₁ := hagree.symm.matches (hm _ heff)
  obtain ⟨k₀, hk₀, rfl⟩ := heff.exists_resched hstart hp
  have hpend := hagree.pendSV
  rw [resched_pendSV, hk₀, hoff, Bool.false_or] at hpend
  rw [hexec, ok_bind, settle]
  by_cases hsel : k₀.selected = k₀.osCurr
  · have hoff₁ : k₁.pendSV = false := by simpa [hsel] using hpend
    rw [if_neg (by simp [hoff₁])]
    refine ⟨k₁, rfl, { toInv := hinv₁, off := hoff₁, onSelected := ?_, simulates := hm₁ }⟩
    rw [hagree.osCurr, hagree.selected, resched_osCurr, ← hsel]
    simp [selected]
  · have hon₁ : k₁.pendSV = true := by simpa [hsel] using hpend
    have hnext : k₁.osNext = k₁.selected := by
      rw [hagree.osNext, hagree.selected, resched_osNext, if_neg hsel]
      simp [selected]
    rw [if_pos hon₁]
    obtain ⟨k₂, k₂', hexec₂, hagree₂, heff₂⟩ := hinv₁.exec (e := .pendSV) hon₁
    refine ⟨k₂, hexec₂, ?_⟩
    have hm₂ := hm₁.effect hinv₁.toWellFormed heff₂ rfl (by simp) (by simp)
    have hinv₂ : Sys.Inv ⟨k₂, ts⟩ :=
      hinv₁.step (e := .pendSV) ⟨hon₁, hexec₂, (List.append_nil _).symm⟩
    rcases heff₂ with _ | _ | _ | _
    refine
      { toInv := hinv₂
        off := hagree₂.pendSV.trans switch_pendSV
        onSelected := ?_
        simulates := hagree₂.symm.matches hm₂ }
    rw [hagree₂.osCurr, hagree₂.selected]
    exact hnext

theorem Settled.tick (h : k.Settled ts r) :
    ∃ k', execEvent k .tick = .ok k' ∧ k'.Settled ts r.tick :=
  exists_settled h.toInv h.off (e := .sysTick) trivial rfl (by simp) fun _ => h.simulates.tick

theorem Settled.delay (h : k.Settled ts r) {p : ℕ} {n : ℕ+} (hp : r.IsRunning (some p))
    (hn : (n : ℕ) < 2 ^ 32) :
    ∃ k', execEvent k (.delay n) = .ok k' ∧ k'.Settled ts (r.delay p n) := by
  obtain ⟨i, t, rfl, ht, hcurr⟩ := h.curr_of_isRunning hp
  refine exists_settled h.toInv h.off (e := .delay (BitVec.ofNat 32 n)) ⟨h.off, ?_, ?_⟩ rfl
    (by simp) fun _ he => h.simulates.delay h.toWellFormed hn he hcurr ht
  · simp [hcurr]
  · simpa [hcurr] using h.ne_idleThread ht

/-! ### The start-up -/

theorem matches_init : Sys.init.kernel.Matches (initialOf []) where
  zero := rfl
  free _ _ := rfl
  status i t ht := by
    obtain ⟨_, hmem, -⟩ := Sys.inv_init.started_of_entry i t ht
    cases hmem

/-- The threads of a list are started one after the other. -/
theorem exists_started {l : List (TcbPtr × BitVec 8)} (hts : Startable (l ++ ts))
    (h : Sys.Inv ⟨k, l⟩) (hoff : k.pendSV = false) (hm : k.Matches (initialOf l)) :
    ∃ k', ts.foldlM (fun k q => osThreadStart q.1 q.2 k) k = .ok k' ∧ Sys.Inv ⟨k', l ++ ts⟩ ∧
      k'.pendSV = false ∧ k'.Matches (initialOf (l ++ ts)) := by
  induction ts generalizing k l with
  | nil => exact ⟨k, rfl, by rwa [List.append_nil], hoff, by rwa [List.append_nil]⟩
  | cons q ts ih =>
    have hen : Sys.Enabled ⟨k, l⟩ (.start q.1 q.2) := hts.enabled k
    obtain ⟨k₁, k₁', hexec, hagree, heff⟩ := h.exec hen
    have hinv₁ : Sys.Inv ⟨k₁, l ++ [q]⟩ := h.step ⟨hen, hexec, rfl⟩
    have hoff₁ : k₁.pendSV = false := by
      rw [hagree.pendSV]
      rcases heff with _ | _
      exact hoff
    have hinit : initialOf (l ++ [q]) =
        Function.update (initialOf l) q.2.toNat (some .ready) := by
      rw [initialOf, List.map_append, List.map_singleton, FixedPriority.State.initial_concat]
      rfl
    have hm₁ : k₁.Matches (initialOf (l ++ [q])) :=
      hinit ▸ hagree.symm.matches (hm.start h.toWellFormed heff)
    have happ : l ++ q :: ts = l ++ [q] ++ ts := by simp
    rw [happ] at hts ⊢
    obtain ⟨k', hk', hrest⟩ := ih hts hinv₁ hoff₁ hm₁
    refine ⟨k', ?_, hrest⟩
    rw [List.foldlM_cons]
    exact (congrArg (· >>= _) hexec).trans hk'

theorem exists_boot (hts : Startable ts) :
    ∃ k, bootKernel ts = .ok k ∧ k.Settled ts (initialOf ts) := by
  obtain ⟨k, hk, hinv, hoff, hm⟩ :=
    exists_started (k := Sys.init.kernel) (l := []) hts Sys.inv_init (by decide) matches_init
  obtain ⟨k', hk', h⟩ := exists_settled (e := .run) hinv hoff trivial rfl (by simp)
    fun _ he => hm.effect hinv.toWellFormed he rfl (by simp) (by simp)
  refine ⟨k', ?_, h⟩
  rw [bootKernel, osInit_reset, ok_bind, hk, ok_bind]
  exact hk'

end Kernel

/-- **The kernel refines the reference scheduler.** Let the kernel be started with the threads
`ts`, and let `es` be events, each followed by PendSV when it is pending, that the reference
scheduler allows: delays of `1` to `2^32 - 1` ticks while a thread other than the idle one runs,
and ticks. Then no function of the kernel faults, and after the events `OS_Curr` is the thread that
the reference scheduler runs, `OS_ReadySet` and `OS_DelayedSet` are its ready and waiting
priorities, and the counters of the waiting threads are those of the reference. -/
theorem refines_fixedPriority {ts : List (TcbPtr × BitVec 8)} (hts : Startable ts)
    {es : List FixedPriority.Event} (hes : ∀ n : ℕ+, .delay n ∈ es → (n : ℕ) < 2 ^ 32)
    {r : FixedPriority.State ℕ} (hr : Run FixedPriority.Step (initialOf ts) es r) :
    ∃ k, execEvents ts es = .ok k ∧ k.Implements ts r := by
  obtain ⟨k₀, hboot, h₀⟩ := Kernel.exists_boot hts
  rw [execEvents, hboot, ok_bind]
  suffices h : ∃ k, es.foldlM execEvent k₀ = .ok k ∧ k.Settled ts r from
    h.imp fun k hk => ⟨hk.1, hk.2.implements⟩
  clear hboot
  generalize initialOf ts = r₀ at hr h₀
  induction hr generalizing k₀ with
  | nil => exact ⟨k₀, rfl, h₀⟩
  | @cons r r₁ r' e es hs hr ih =>
    have hstep : ∃ k₁, execEvent k₀ e = .ok k₁ ∧ k₁.Settled ts r₁ := by
      rcases hs with ⟨hp⟩ | _
      · exact h₀.delay hp (hes _ List.mem_cons_self)
      · exact h₀.tick
    obtain ⟨k₁, hk₁, h₁⟩ := hstep
    obtain ⟨k, hk, h⟩ := ih (fun n hn => hes n (List.mem_cons_of_mem _ hn)) k₁ h₁
    refine ⟨k, ?_, h⟩
    rw [List.foldlM_cons, hk₁]
    exact hk

/-- Of two threads the one of the greater priority sleeps for two ticks, and one of them passes. -/
theorem refines_fixedPriority_delay : ∃ r, Run FixedPriority.Step
      (initialOf [(.thread 0, 3), (.thread 1, 2)]) [.delay 2, .tick] r ∧
    ∃ k, execEvents [(.thread 0, 3), (.thread 1, 2)] [.delay 2, .tick] = .ok k ∧
      k.Implements [(.thread 0, 3), (.thread 1, 2)] r := by
  have hrunning : (initialOf [(.thread 0, 3), (.thread 1, 2)]).IsRunning (some 3) := by
    refine ⟨by simp [initialOf, FixedPriority.State.ready, FixedPriority.State.initial], ?_⟩
    intro p hp
    simp only [initialOf, FixedPriority.State.ready, FixedPriority.State.initial, List.map_cons,
      List.map_nil, List.mem_cons, Set.mem_ofPred_eq, List.not_mem_nil, or_false,
      ite_eq_left_iff, reduceCtorEq, imp_false, not_not] at hp
    change p = 3 ∨ p = 2 at hp
    omega
  have hr := Run.cons (FixedPriority.Step.delay (n := 2) hrunning)
    (Run.cons FixedPriority.Step.tick (.nil _))
  refine ⟨_, hr, refines_fixedPriority ⟨?_, ?_, ?_, ?_⟩ ?_ hr⟩
  · simp
  · simp
  · simp
  · simp
  · intro n hn
    simp only [List.mem_cons, FixedPriority.Event.delay.injEq, reduceCtorEq, List.not_mem_nil,
      or_self, or_false] at hn
    rw [hn]
    decide

end LiteRTOS
