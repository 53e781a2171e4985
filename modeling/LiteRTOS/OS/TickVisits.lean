import LiteRTOS.OS.Tick

/-!
# The iterations of `OS_Tick`

`osTickLoop` is the `while` loop of `OS_Tick` cut off after a number of iterations. Here the loop
is taken as it stands: `TickLoop pending k ts k'` says that from the working copy `pending` and the
kernel `k` it ends in the kernel `k'` after one iteration for each thread of the list `ts`, in this
order. Cutting the loop off after `n` iterations makes no difference exactly if it ends within `n`
iterations (`osTickLoop_eq_ok_iff`).

When the bits of `OS_DelayedSet` agree with the priorities of their threads, the loop takes one
iteration for each bit and visits each delayed thread once. Its result is the simultaneous tick of
all of them, which is spelled out in `PointwiseTick`.

## Main definitions

* `osTickVisit`, `TickLoop`: one iteration, and the loop.
* `Kernel.Expires`, `PointwiseTick`: the tick of each thread and each bit on its own.

## Main results

* `TickLoop.unique`: the loop has one course.
* `osTickLoop_eq_ok_iff`: the loop and the loop that is cut off.
* `osTick_pointwise`: `OS_Tick` is the pointwise tick.
-/

namespace LiteRTOS

/-! ### The loop -/

/-- The body of the `while` loop of `OS_Tick`: the thread visited, the working copy and the kernel
afterwards. -/
def osTickVisit (pending : BitVec 32) (k : Kernel) :
    Except Fault (TcbPtr × BitVec 32 × Kernel) := do
  let index ← log2 pending
  let thread ← deref (← k.threadAt index.toNat)
  let bit ← threadBit (k.tcb thread).prio
  let k := k.setTimeOut thread ((k.tcb thread).timeOut - 1)
  let k :=
    if (k.tcb thread).timeOut = 0 then
      { k with osReadySet := k.osReadySet ||| bit, osDelayedSet := k.osDelayedSet &&& ~~~bit }
    else k
  return (thread, pending &&& ~~~bit, k)

/-- From the working copy and the kernel given, the `while` loop visits the threads of the list one
after the other and ends. -/
inductive TickLoop : BitVec 32 → Kernel → List TcbPtr → Kernel → Prop
  | done (k : Kernel) : TickLoop 0 k [] k
  | visit {pending pending' : BitVec 32} {k k' k'' : Kernel} {t : TcbPtr} {ts : List TcbPtr}
      (hp : pending ≠ 0) (hv : osTickVisit pending k = .ok (t, pending', k'))
      (hr : TickLoop pending' k' ts k'') : TickLoop pending k (t :: ts) k''

variable {pending : BitVec 32} {k k' k'' : Kernel} {t : TcbPtr} {ts ts' : List TcbPtr} {n : ℕ}

theorem TickLoop.unique (h : TickLoop pending k ts k') (h' : TickLoop pending k ts' k'') :
    ts = ts' ∧ k' = k'' := by
  induction h generalizing ts' with
  | done k =>
    cases h' with
    | done => exact ⟨rfl, rfl⟩
    | visit hp => exact absurd rfl hp
  | visit hp hv _ ih =>
    cases h' with
    | done => exact absurd rfl hp
    | visit _ hv' hr' =>
      obtain ⟨rfl, rfl, rfl⟩ : _ ∧ _ ∧ _ := by simpa using hv.symm.trans hv'
      obtain ⟨rfl, rfl⟩ := ih hr'
      exact ⟨rfl, rfl⟩

theorem osTickLoop_of_ne (hp : pending ≠ 0) (n : ℕ) (k : Kernel) :
    osTickLoop (n + 1) pending k =
      (do let (_, pending, k) ← osTickVisit pending k; osTickLoop n pending k) := by
  rw [osTickLoop, if_neg hp, osTickVisit]
  simp only [bind_assoc, pure_bind]

theorem osTickLoop_zero_right (n : ℕ) (k : Kernel) : osTickLoop n 0 k = .ok k := by
  cases n <;> rfl

/-- The loop that is cut off after `n` iterations ends as the loop does that takes no more. -/
theorem osTickLoop_eq_ok_iff : osTickLoop n pending k = .ok k' ↔
    ∃ ts, TickLoop pending k ts k' ∧ ts.length ≤ n := by
  constructor
  · intro h
    induction n generalizing pending k with
    | zero =>
      by_cases hp : pending = 0
      · subst hp
        obtain rfl := Except.ok.inj ((osTickLoop_zero_right 0 k).symm.trans h)
        exact ⟨[], .done k, le_refl 0⟩
      · rw [osTickLoop, if_neg hp] at h
        cases h
    | succ n ih =>
      by_cases hp : pending = 0
      · subst hp
        obtain rfl := Except.ok.inj ((osTickLoop_zero_right _ k).symm.trans h)
        exact ⟨[], .done k, Nat.zero_le _⟩
      · rw [osTickLoop_of_ne hp] at h
        obtain ⟨⟨t, pending', k₁⟩, hv, h⟩ := bind_eq_ok.mp h
        obtain ⟨ts, hr, hlen⟩ := ih h
        exact ⟨t :: ts, .visit hp hv hr, Nat.succ_le_succ hlen⟩
  · rintro ⟨ts, h, hlen⟩
    induction h generalizing n with
    | done k => exact osTickLoop_zero_right n k
    | @visit pending pending' k k₁ k'' t ts hp hv hr ih =>
      obtain ⟨n, rfl⟩ := Nat.exists_eq_succ_of_ne_zero (Nat.ne_of_gt (Nat.zero_lt_of_lt hlen))
      rw [osTickLoop_of_ne hp, hv]
      exact ih (Nat.le_of_succ_le_succ hlen)

/-! ### One iteration for each bit -/

/-- An iteration visits the thread of the highest bit. -/
theorem osTickVisit_eq (hk : k.Indexed pending) (hp : pending ≠ 0) :
    ∃ t, k.entry (BitMask.top pending + 1) = some t ∧ osTickVisit pending k =
      .ok (t, pending &&& ~~~(1#32 <<< BitMask.top pending),
        k.tickOn (1#32 <<< BitMask.top pending)) := by
  obtain ⟨t, ht, hprio⟩ := hk _ (BitMask.getLsbD_top hp)
  have htop := BitMask.top_lt (by omega) pending
  refine ⟨t, ht, ?_⟩
  rw [osTickVisit, log2_eq hp, ok_bind, toNat_log2 hp, k.threadAt_eq (by omega), ht, ok_bind]
  simp only [deref, ok_bind, threadBit_eq hprio htop, Kernel.tickOn_single htop ht]
  rfl

/-- A thread of the mask is the one of the highest bit or one of the other bits, and not both. -/
theorem Kernel.Indexed.inMask_erase_top (hk : k.Indexed pending) (hp : pending ≠ 0)
    (ht : k.entry (BitMask.top pending + 1) = some t) (s : TcbPtr) :
    (k.InMask pending s ↔ s = t ∨ k.InMask (pending &&& ~~~(1#32 <<< BitMask.top pending)) s) ∧
      ¬k.InMask (pending &&& ~~~(1#32 <<< BitMask.top pending)) t := by
  have htop := BitMask.top_lt (by omega) pending
  have hmem (i : ℕ) : (pending &&& ~~~(1#32 <<< BitMask.top pending)).getLsbD i = true ↔
      pending.getLsbD i = true ∧ i ≠ BitMask.top pending := by
    rw [BitMask.getLsbD_erase htop]
    simp
  simp only [Kernel.inMask_iff, hmem]
  refine ⟨⟨?_, ?_⟩, ?_⟩
  · rintro ⟨i, hi, hs⟩
    by_cases heq : i = BitMask.top pending
    · subst heq
      exact Or.inl (Option.some.inj (hs.symm.trans ht))
    · exact Or.inr ⟨i, ⟨hi, heq⟩, hs⟩
  · rintro (rfl | ⟨i, ⟨hi, -⟩, hs⟩)
    · exact ⟨_, BitMask.getLsbD_top hp, ht⟩
    · exact ⟨i, hi, hs⟩
  · rintro ⟨i, ⟨hi, hne⟩, hs⟩
    have h₁ := hk.eq_of_entry hi hs
    have h₂ := hk.eq_of_entry (BitMask.getLsbD_top hp) ht
    omega

/-- The loop takes one iteration for each bit, and visits each thread of the mask once. -/
theorem TickLoop.visits (h : TickLoop pending k ts k') (hk : k.Indexed pending) :
    ts.length = (BitMask.bits pending).ncard ∧ ts.Nodup ∧ ∀ t, t ∈ ts ↔ k.InMask pending t := by
  induction h with
  | done k =>
    have hempty : BitMask.bits (0#32) = ∅ := by
      ext i
      simp
    exact ⟨by simp [hempty], List.nodup_nil, by simp [Kernel.inMask_iff]⟩
  | @visit pending pending' k k₁ k'' t ts hp hv hr ih =>
    obtain ⟨t₁, ht, hv'⟩ := osTickVisit_eq hk hp
    obtain ⟨rfl, rfl, rfl⟩ : _ ∧ _ ∧ _ := by simpa using hv.symm.trans hv'
    have hidx : k.Indexed (pending &&& ~~~(1#32 <<< BitMask.top pending)) := hk.mono fun i hi => by
      rw [BitVec.getLsbD_and, Bool.and_eq_true] at hi
      exact hi.1
    obtain ⟨hlen, hnodup, hmem⟩ := ih (by
      simpa only [Kernel.Indexed, Kernel.tickOn_entry, Kernel.tickOn_prio] using hidx)
    simp only [Kernel.tickOn_inMask] at hmem
    have herase := hk.inMask_erase_top hp ht
    refine ⟨?_, ?_, fun s => ?_⟩
    · rw [List.length_cons, hlen, BitMask.ncard_bits_erase (BitMask.getLsbD_top hp)]
    · exact List.nodup_cons.mpr ⟨fun hmem' => (herase t).2 ((hmem t).mp hmem'), hnodup⟩
    · rw [List.mem_cons, hmem, (herase s).1]

/-! ### The pointwise tick -/

namespace Kernel

/-- The bit `i` is in `OS_DelayedSet`, and the counter of its thread comes to zero with the next
tick. -/
def Expires (k : Kernel) (i : ℕ) : Prop :=
  k.osDelayedSet.getLsbD i = true ∧ ∃ t, k.entry (i + 1) = some t ∧ (k.tcb t).timeOut - 1 = 0

/-- `k'` is what a tick makes of `k`, said for each thread and for each bit on its own: the counters
of the delayed threads go down by one modulo `2^32`, and the bits whose counter becomes zero move
from `OS_DelayedSet` to `OS_ReadySet`. Nothing else changes. -/
structure PointwiseTick (k k' : Kernel) : Prop where
  timeOut : ∀ t, k.InMask k.osDelayedSet t → (k'.tcb t).timeOut = (k.tcb t).timeOut - 1
  timeOut_of_not : ∀ t, ¬k.InMask k.osDelayedSet t → (k'.tcb t).timeOut = (k.tcb t).timeOut
  prio : ∀ t, (k'.tcb t).prio = (k.tcb t).prio
  ready : ∀ i, k'.osReadySet.getLsbD i = true ↔ k.osReadySet.getLsbD i = true ∨ k.Expires i
  delayed : ∀ i, k'.osDelayedSet.getLsbD i = true ↔
    k.osDelayedSet.getLsbD i = true ∧ ¬k.Expires i
  frame : k' = { k with
    tcb := k'.tcb, osReadySet := k'.osReadySet, osDelayedSet := k'.osDelayedSet }

theorem pointwiseTick_tickOn (k : Kernel) : k.PointwiseTick (k.tickOn k.osDelayedSet) where
  timeOut t ht := by rw [tickOn_timeOut, if_pos ht]
  timeOut_of_not t ht := by rw [tickOn_timeOut, if_neg ht]
  prio := tickOn_prio _
  ready i := by
    rw [Expires, ← getLsbD_expired, tickOn, BitVec.getLsbD_or, Bool.or_eq_true]
  delayed i := by
    rw [Expires, ← getLsbD_expired, tickOn, BitVec.getLsbD_and, BitVec.getLsbD_not]
    by_cases hi : i < 32
    · simp [hi]
    · simp [BitVec.getLsbD_of_ge k.osDelayedSet i (by omega)]
  frame := rfl

end Kernel

/-- **`OS_Tick` is the pointwise tick.** Let every bit `i` of `OS_DelayedSet` have a thread in
`OS_Thread` at `i + 1`, of this priority. Then the loop of `OS_Tick` ends after as many iterations
as `OS_DelayedSet` has bits and visits each delayed thread exactly once. It evaluates `LOG2` on no
zero word, follows no null pointer and shifts by less than 32, and its result is the pointwise
tick. -/
theorem osTick_pointwise (hk : ∀ i, k.osDelayedSet.getLsbD i = true →
      ∃ t, k.entry (i + 1) = some t ∧ (k.tcb t).prio.toNat = i + 1) :
    ∃ k' ts, osTick k = .ok k' ∧ TickLoop k.osDelayedSet k ts k' ∧
      ts.length = (BitMask.bits k.osDelayedSet).ncard ∧ ts.Nodup ∧
      (∀ t, t ∈ ts ↔ k.InMask k.osDelayedSet t) ∧ k.PointwiseTick k' := by
  have htick := osTick_eq hk
  obtain ⟨ts, hloop, -⟩ := osTickLoop_eq_ok_iff.mp htick
  obtain ⟨hlen, hnodup, hmem⟩ := hloop.visits hk
  exact ⟨_, ts, htick, hloop, hlen, hnodup, hmem, k.pointwiseTick_tickOn⟩

/-- The thread of priority 3 has its last tick, and the one of priority 1 has asked for none. -/
def exampleDelayed : Kernel where
  osCurr := some .idleThread
  osNext := none
  osThread p := if p = 1 then some (.thread 1) else if p = 3 then some (.thread 3) else none
  osReadySet := 0
  osDelayedSet := 0b101
  tcb t := if t = .thread 3 then ⟨3, 1⟩ else ⟨1, 0⟩
  millisecCounter := 0
  primask := false
  scs _ := 0
  portC := { odr := 0 }

theorem osTick_pointwise_two : ∃ k', osTick exampleDelayed = .ok k' ∧
    k'.osReadySet.getLsbD 2 = true ∧ k'.osDelayedSet.getLsbD 0 = true ∧
    (k'.tcb (.thread 1)).timeOut = 0xFFFFFFFF := by
  have hbits : ∀ i < 32, (0b101#32).getLsbD i = true → i = 0 ∨ i = 2 := by decide
  obtain ⟨k', ts, hk', -, -, -, -, h⟩ := osTick_pointwise (k := exampleDelayed) fun i hi => by
    rcases hbits i (BitVec.lt_of_getLsbD hi) hi with rfl | rfl
    · exact ⟨.thread 1, rfl, rfl⟩
    · exact ⟨.thread 3, rfl, rfl⟩
  refine ⟨k', hk', (h.ready 2).mpr (Or.inr ⟨rfl, .thread 3, rfl, rfl⟩), (h.delayed 0).mpr ⟨rfl, ?_⟩,
    h.timeOut _ (by decide)⟩
  rintro ⟨-, t, ht, hzero⟩
  obtain rfl : TcbPtr.thread 1 = t := Option.some.inj ht
  exact absurd hzero (by decide)

end LiteRTOS
