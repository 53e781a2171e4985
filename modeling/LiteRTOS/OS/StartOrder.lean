import LiteRTOS.Core.Layout
import LiteRTOS.OS.Refinement
import LiteRTOS.OS.Registration

/-!
# The order in which the threads are started

`OSThread_Start` sets up the stack and the control block of its thread and registers the thread in
`OS_Thread` and in `OS_ReadySet`. The calls for two threads write to different words of the memory
and to different entries of the table, and the mask collects their bits in either order. So the
state after the start-up is the same for every order of the threads, and it is the greatest
priority that decides which of them PendSV starts first.

## Main definitions

* `Threads`: the threads of a program, with the objects that they are started with.
* `Threads.osThreadStart`, `Threads.osInit`: the functions on the kernel and the memory.
* `Threads.boot`: the start-up before `OS_Run`.

## Main results

* `Threads.osThreadStart_comm`: two calls of `OSThread_Start` in either order.
* `start_order`: the state after the start-up, and the thread that is started first.
-/

namespace LiteRTOS

/-- The threads of a program: the objects that they are started with, the names of their control
blocks in the kernel, and their priorities. One of them is the idle thread. -/
structure Threads (ι : Type*) extends Layout ι where
  ptr : ι → TcbPtr
  prio : ι → BitVec 8
  idle : ι
  ptr_idle : ptr idle = .idleThread

namespace Threads

section Definitions

variable {ι : Type*} (T : Threads ι)

/-- `OSThread_Start` for the thread `t` on the priority `prio`. -/
def osThreadStart (t : ι) (prio : BitVec 8) (s : Kernel × ByteMemory) :
    Except Fault (Kernel × ByteMemory) := do
  let m ← T.start t s.2
  let k ← LiteRTOS.osThreadStart (T.ptr t) prio s.1
  return (k, m)

/-- `OS_Init`. -/
def osInit (s : Kernel × ByteMemory) : Except Fault (Kernel × ByteMemory) :=
  let scs := s.1.scs.store32 nvicSysPri3R (s.1.scs.load32 nvicSysPri3R ||| 0xFF#32 <<< 16)
  T.osThreadStart T.idle 0 ({ s.1 with scs := scs }, s.2)

/-- The calls of `OSThread_Start` for the threads `ts`, each on its priority. -/
def startEach (ts : List ι) (s : Kernel × ByteMemory) : Except Fault (Kernel × ByteMemory) :=
  ts.foldlM (fun s t => T.osThreadStart t (T.prio t) s) s

/-- `OS_Init` and the calls of `OSThread_Start` for the threads `ts`, on zeroed variables and the
memory `m`. -/
def boot (ts : List ι) (m : ByteMemory) : Except Fault (Kernel × ByteMemory) := do
  let s ← T.osInit (Kernel.reset, m)
  T.startEach ts s

/-- The registration of the thread `t`. -/
def call (t : ι) : TcbPtr × BitVec 8 := (T.ptr t, T.prio t)

end Definitions

end Threads

/-! ### Two calls -/

namespace Kernel

variable {k k' : Kernel} {t u : TcbPtr} {prio prio' : BitVec 8}

/-- Two registrations write to different entries and control blocks. -/
theorem addThread_comm (htu : t ≠ u) {i j : Fin 32} (hij : i ≠ j) :
    (k.addThread t prio i).addThread u prio' j = (k.addThread u prio' j).addThread t prio i := by
  have hsucc : i.succ ≠ j.succ := fun h => hij (Fin.succ_injective _ h)
  refine Kernel.ext rfl rfl ?_ ?_ rfl ?_ rfl rfl rfl rfl
  · exact Function.update_comm hsucc (some t) (some u) k.osThread
  · change k.osReadySet ||| _ ||| _ = k.osReadySet ||| _ ||| _
    rw [BitVec.or_assoc, BitVec.or_assoc, BitVec.or_comm (1#32 <<< i.val)]
  · simp only [addThread, setPrio, Function.update_of_ne htu, Function.update_of_ne htu.symm]
    exact Function.update_comm htu _ _ k.tcb

/-- Registering a thread does not change the current one. -/
theorem osThreadStart_osCurr (h : osThreadStart t prio k = .ok k') : k'.osCurr = k.osCurr := by
  rw [osThreadStart] at h
  split_ifs at h
  · obtain ⟨_, -, h⟩ := bind_eq_ok.mp h
    exact Except.ok.inj h ▸ rfl
  · exact Except.ok.inj h ▸ rfl

theorem startAll_osCurr {l : List (TcbPtr × BitVec 8)} (h : startAll l k = .ok k') :
    k'.osCurr = k.osCurr := by
  induction l generalizing k with
  | nil => exact Except.ok.inj h ▸ rfl
  | cons q l ih =>
    rw [startAll, List.foldlM_cons] at h
    obtain ⟨k₁, hk₁, h⟩ := bind_eq_ok.mp h
    exact (ih h).trans (osThreadStart_osCurr hk₁)

end Kernel

namespace Threads

variable {ι : Type*} (T : Threads ι) {ts us : List ι} {t u : ι}

/-- Two calls of `OSThread_Start` can be made in either order. -/
theorem osThreadStart_comm {prio prio' : BitVec 8} (h : 1 ≤ prio.toNat ∧ prio.toNat ≤ 32)
    (h' : 1 ≤ prio'.toNat ∧ prio'.toNat ≤ 32) (htu : T.ptr t ≠ T.ptr u) (hprio : prio ≠ prio')
    (s : Kernel × ByteMemory) :
    (do T.osThreadStart u prio' (← T.osThreadStart t prio s)) =
      (do T.osThreadStart t prio (← T.osThreadStart u prio' s)) := by
  obtain ⟨i, hi⟩ := exists_prio_eq h.1 h.2
  obtain ⟨j, hj⟩ := exists_prio_eq h'.1 h'.2
  have hij : i ≠ j := by
    rintro rfl
    exact hprio (BitVec.eq_of_toNat_eq (hi.trans hj.symm))
  have hmem := T.start_comm (fun heq : t = u => htu (congrArg T.ptr heq)) s.2
  obtain ⟨m₁, hm₁, -⟩ := T.exists_start t s.2
  obtain ⟨m₂, hm₂, -⟩ := T.exists_start u s.2
  obtain ⟨m₃, hm₃, -⟩ := T.exists_start u m₁
  rw [hm₁, hm₂, ok_bind, ok_bind, hm₃] at hmem
  simp only [osThreadStart, hm₁, hm₂, ok_bind, osThreadStart_eq _ hi, osThreadStart_eq _ hj, hm₃,
    ← hmem, Kernel.addThread_comm htu hij, pure, Except.pure]

/-! ### All calls -/

theorem startEach_perm (hts : Startable (ts.map T.call)) (h : ts.Perm us)
    (s : Kernel × ByteMemory) : T.startEach ts s = T.startEach us s := by
  have htcb := hts.nodup_tcb
  have hprio := hts.nodup_prio
  rw [List.map_map] at htcb hprio
  refine h.foldlM_eq (fun t ht u hu s => ?_) s
  by_cases htu : t = u
  · rw [htu]
  · exact T.osThreadStart_comm (hts.prio_mem _ (List.mem_map_of_mem ht))
      (hts.prio_mem _ (List.mem_map_of_mem hu))
      (fun heq => htu (List.inj_on_of_nodup_map htcb ht hu heq))
      (fun heq => htu (List.inj_on_of_nodup_map hprio ht hu heq)) s

/-- The calls set up the memory and the kernel independently of each other. -/
theorem startEach_eq {k k' : Kernel} {m m' : ByteMemory} (hm : T.setUp ts m = .ok m')
    (hk : startAll (ts.map T.call) k = .ok k') : T.startEach ts (k, m) = .ok (k', m') := by
  induction ts generalizing k m with
  | nil =>
    obtain rfl := Except.ok.inj hm
    obtain rfl := Except.ok.inj hk
    rfl
  | cons t ts ih =>
    rw [Layout.setUp, List.foldlM_cons] at hm
    rw [List.map_cons, startAll, List.foldlM_cons] at hk
    obtain ⟨m₁, hm₁, hm⟩ := bind_eq_ok.mp hm
    obtain ⟨k₁, hk₁, hk⟩ := bind_eq_ok.mp hk
    have hstep : T.osThreadStart t (T.prio t) (k, m) = .ok (k₁, m₁) := by
      rw [osThreadStart, hm₁, ok_bind]
      exact congrArg (· >>= fun k => .ok (k, m₁)) hk₁
    rw [startEach, List.foldlM_cons, hstep, ok_bind]
    exact ih hm hk

/-- `OS_Init` sets up the idle thread and registers it. -/
theorem osInit_eq {k k' : Kernel} {m m' : ByteMemory} (hm : T.start T.idle m = .ok m')
    (hk : LiteRTOS.osInit k = .ok k') : T.osInit (k, m) = .ok (k', m') := by
  rw [osInit, osThreadStart, hm, ok_bind, T.ptr_idle]
  exact congrArg (· >>= fun k => .ok (k, m')) hk

end Threads

/-- After the threads have been started, `OS_Run` pends PendSV, which starts the first thread. -/
theorem Kernel.exists_dispatch {calls : List (TcbPtr × BitVec 8)} (hcalls : Startable calls) :
    ∃ k k₁ k₂, startAll calls Sys.init.kernel = .ok k ∧ osRun k = .ok k₁ ∧ k₁.pendSV = true ∧
      pendSVHandler k₁ = .ok k₂ ∧ k₂.Settled calls (initialOf calls) := by
  obtain ⟨k, hk, hinv, hoff, hm⟩ :=
    exists_started (k := Sys.init.kernel) (l := []) hcalls Sys.inv_init (by decide) matches_init
  obtain ⟨k₁, hk₁, hagree⟩ := osRun_agree k
  obtain ⟨k₂, hk₂, h⟩ := exists_settled (e := .run) hinv hoff trivial rfl (by simp)
    fun _ he => hm.effect hinv.toWellFormed he rfl (by simp) (by simp)
  -- no thread runs yet, so that the selected one is not the current one
  have hcurr : k.osCurr = none := startAll_osCurr hk
  obtain ⟨t, ht, -⟩ := hinv.exists_selected
  have hpend : k₁.pendSV = true := by
    rw [hagree.pendSV, resched_pendSV, ht, hcurr]
    simp
  have hsettle : settle k₁ = .ok k₂ := (congrArg (· >>= settle) hk₁).symm.trans hk₂
  rw [settle, if_pos hpend] at hsettle
  exact ⟨k, k₁, k₂, hk, hk₁, hpend, hsettle, h⟩

/-- The priorities that are ready after the start-up. -/
theorem mem_ready_initialOf {calls : List (TcbPtr × BitVec 8)} {p : ℕ} :
    p ∈ (initialOf calls).ready ↔ ∃ q ∈ calls, q.2.toNat = p := by
  simp [initialOf, FixedPriority.State.ready, FixedPriority.State.initial]

/-- **The order in which the threads are started does not matter.** Let the threads `ts`, each with
a stack of its own that the first frame fits on, have different control blocks, none of them the
one of the idle thread, and different priorities in `1..32`. After `OS_Init` and the calls of
`OSThread_Start`, the kernel and the memory are the same for every order `us` of the threads.
`OS_Run` then pends PendSV, which starts the thread of the greatest priority, or the idle thread if
`ts` is empty. -/
theorem start_order {ι : Type*} (T : Threads ι) {ts us : List ι}
    (hts : Startable (ts.map T.call)) (hperm : ts.Perm us) (m : ByteMemory) :
    ∃ s, T.boot ts m = .ok s ∧ T.boot us m = .ok s ∧
      ∃ k₁ k₂, osRun s.1 = .ok k₁ ∧ k₁.pendSV = true ∧ pendSVHandler k₁ = .ok k₂ ∧
        (ts = [] → k₂.osCurr = some (T.ptr T.idle)) ∧
        ∀ t ∈ ts, (∀ u ∈ ts, T.prio u ≤ T.prio t) → k₂.osCurr = some (T.ptr t) := by
  obtain ⟨m₁, hm₁, -⟩ := T.exists_start T.idle m
  obtain ⟨m₂, hm₂, -⟩ := T.exists_setUp ts m₁
  obtain ⟨k, k₁, k₂, hk, hk₁, hpend, hk₂, h⟩ := Kernel.exists_dispatch hts
  have hboot : T.boot ts m = .ok (k, m₂) := by
    rw [Threads.boot, T.osInit_eq hm₁ osInit_reset, ok_bind]
    exact T.startEach_eq hm₂ hk
  have hboot' : T.boot us m = T.boot ts m := by
    simp only [Threads.boot, T.startEach_perm hts hperm]
  refine ⟨(k, m₂), hboot, hboot'.trans hboot, k₁, k₂, hk₁, hpend, hk₂, ?_, fun t ht hmax => ?_⟩
  · rintro rfl
    have hempty : (initialOf []).IsRunning none := by
      refine Set.eq_empty_of_forall_notMem fun p hp => ?_
      obtain ⟨_, hq, -⟩ := mem_ready_initialOf.mp hp
      cases hq
    rw [T.ptr_idle]
    exact h.curr_idle hempty
  · have hgreatest : (initialOf (ts.map T.call)).IsRunning (some (T.prio t).toNat) := by
      refine ⟨mem_ready_initialOf.mpr ⟨_, List.mem_map_of_mem ht, rfl⟩, fun p hp => ?_⟩
      obtain ⟨_, hq, rfl⟩ := mem_ready_initialOf.mp hp
      obtain ⟨u, hu, rfl⟩ := List.mem_map.mp hq
      exact hmax u hu
    obtain ⟨_, ⟨prio, hmem, hprio⟩, hcurr⟩ := h.implements.running _ hgreatest
    obtain ⟨u, hu, heq⟩ := List.mem_map.mp hmem
    have hnodup := hts.nodup_prio
    rw [List.map_map] at hnodup
    obtain ⟨rfl, rfl⟩ := Prod.mk.inj heq
    obtain rfl : u = t := List.inj_on_of_nodup_map hnodup hu ht (BitVec.eq_of_toNat_eq hprio)
    exact hcurr

/-- The idle thread and two others, with a kilobyte of stack each. -/
def exampleThreads : Threads (Fin 3) where
  osCurr := 0x20000100
  osNext := 0x20000104
  tcb t := 0x20000108 + 0xC * BitVec.ofNat 32 t
  handler t := 0x08000101 + 0x100 * BitVec.ofNat 32 t
  stkStorage o := o.elim 0x20001000 fun t => 0x20001400 + 0x400 * BitVec.ofNat 32 t
  stkSize _ := 0x400
  tcb_ne_zero := by decide
  curr_next := by decide
  curr_tcb := by decide
  next_tcb := by decide
  tcb_tcb := by decide
  stack_curr := by decide
  stack_next := by decide
  stack_tcb := by decide
  stack_stack := by decide
  stack_pos := by decide
  stack_end := by decide
  stack_room := by decide
  ptr t := if t = 0 then .idleThread else .thread t
  prio t := if t = 0 then 0 else if t = 1 then 3 else 2
  idle := 0
  ptr_idle := rfl

/-- The first of two threads runs first, in whichever order they are started. -/
theorem start_order_two : ∃ s, exampleThreads.boot [1, 2] (fun _ => 0) = .ok s ∧
    exampleThreads.boot [2, 1] (fun _ => 0) = .ok s ∧
    ∃ k₁ k₂, osRun s.1 = .ok k₁ ∧ pendSVHandler k₁ = .ok k₂ ∧ k₂.osCurr = some (.thread 1) := by
  have hts : Startable ([1, 2].map exampleThreads.call) :=
    ⟨by decide, by decide, by decide, by decide⟩
  obtain ⟨s, hs, hs', k₁, k₂, hk₁, -, hk₂, -, hmax⟩ :=
    start_order exampleThreads hts (.swap 2 1 []) fun _ => 0
  exact ⟨s, hs, hs', k₁, k₂, hk₁, hk₂, hmax 1 (by decide) (by decide)⟩

end LiteRTOS
