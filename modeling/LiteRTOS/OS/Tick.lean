import LiteRTOS.OS.Sched
import Mathlib.Tactic.Set

/-!
# `OS_Tick` visits every delayed thread once

`OS_Tick` works through a copy of `OS_DelayedSet` from the highest bit down. It finds the thread
of a bit through the index in `OS_Thread`, but clears the bit of the thread's priority, so that it
ends when the two agree (`Kernel.Indexed`). Then the loop is one simultaneous tick of all threads
of the mask, `Kernel.tickOn`: each counter goes down by one, and the bits whose counter has become
zero move from `OS_DelayedSet` to `OS_ReadySet`.

The induction is on the number of iterations left: ticks on disjoint masks compose
(`Kernel.tickOn_tickOn`), and one iteration is the tick on the highest bit alone
(`osTickLoop_succ`).

## Main definitions

* `Kernel.InMask`, `Kernel.expired`, `Kernel.tickOn`: the tick on a set of bits.
* `Kernel.Indexed`: every bit of a mask has a thread of that priority.

## Main results

* `osTick_eq`: `OS_Tick` is the tick on `OS_DelayedSet`.
-/

namespace LiteRTOS

namespace Kernel

variable (k : Kernel)

/-- `t` is the thread of a bit of the mask `v`. -/
def InMask (v : BitVec 32) (t : TcbPtr) : Prop :=
  ∃ i < 32, v.getLsbD i = true ∧ k.entry (i + 1) = some t

instance (v : BitVec 32) (t : TcbPtr) : Decidable (k.InMask v t) :=
  inferInstanceAs (Decidable (∃ i < 32, _))

/-- The bits of `v` whose thread has no tick left after this one. -/
def expired (v : BitVec 32) : BitVec 32 :=
  BitMask.ofPred
    (fun i => v.getLsbD i && (k.entry (i + 1)).any fun t => (k.tcb t).timeOut - 1 == 0) 32

/-- One tick of all threads of the mask `v` at once. -/
def tickOn (v : BitVec 32) : Kernel :=
  { k with
    tcb := fun t =>
      if k.InMask v t then { k.tcb t with timeOut := (k.tcb t).timeOut - 1 } else k.tcb t
    osReadySet := k.osReadySet ||| k.expired v
    osDelayedSet := k.osDelayedSet &&& ~~~k.expired v }

/-- Every bit `i` of the mask has a thread in the table, of priority `i + 1`. -/
def Indexed (v : BitVec 32) : Prop :=
  ∀ i, v.getLsbD i = true → ∃ t, k.entry (i + 1) = some t ∧ (k.tcb t).prio.toNat = i + 1

variable {k}

theorem inMask_iff {v : BitVec 32} {t : TcbPtr} :
    k.InMask v t ↔ ∃ i, v.getLsbD i = true ∧ k.entry (i + 1) = some t :=
  ⟨fun ⟨i, _, h⟩ => ⟨i, h⟩, fun ⟨i, h⟩ => ⟨i, BitVec.lt_of_getLsbD h.1, h⟩⟩

theorem getLsbD_expired {v : BitVec 32} {i : ℕ} :
    (k.expired v).getLsbD i = true ↔
      v.getLsbD i = true ∧ ∃ t, k.entry (i + 1) = some t ∧ (k.tcb t).timeOut - 1 = 0 := by
  simp only [expired, BitMask.getLsbD_ofPred, Bool.and_eq_true, decide_eq_true_eq,
    Option.any_eq_true, beq_iff_eq]
  exact ⟨fun h => h.2, fun h => ⟨BitVec.lt_of_getLsbD h.1, h⟩⟩

/-- The bit of a thread in the table has expired when its counter is at one. -/
theorem getLsbD_expired_of_entry {v : BitVec 32} {i : ℕ} {t : TcbPtr}
    (h : k.entry (i + 1) = some t) :
    (k.expired v).getLsbD i = true ↔ v.getLsbD i = true ∧ (k.tcb t).timeOut - 1 = 0 := by
  rw [getLsbD_expired, h]
  simp

theorem Indexed.mono {u v : BitVec 32} (h : k.Indexed v)
    (huv : ∀ i, u.getLsbD i = true → v.getLsbD i = true) : k.Indexed u :=
  fun i hi => h i (huv i hi)

/-- The bits of a thread in an indexed mask are all at its priority. -/
theorem Indexed.eq_of_entry {v : BitVec 32} (h : k.Indexed v) {i : ℕ} {t : TcbPtr}
    (hi : v.getLsbD i = true) (ht : k.entry (i + 1) = some t) : (k.tcb t).prio.toNat = i + 1 := by
  obtain ⟨t', ht', hprio⟩ := h i hi
  rw [ht] at ht'
  rwa [Option.some.inj ht']

@[simp] theorem tickOn_osThread (v : BitVec 32) : (k.tickOn v).osThread = k.osThread := rfl

@[simp] theorem tickOn_entry (v : BitVec 32) (p : ℕ) : (k.tickOn v).entry p = k.entry p := rfl

@[simp] theorem tickOn_osCurr (v : BitVec 32) : (k.tickOn v).osCurr = k.osCurr := rfl

@[simp] theorem tickOn_osNext (v : BitVec 32) : (k.tickOn v).osNext = k.osNext := rfl

@[simp] theorem tickOn_scs (v : BitVec 32) : (k.tickOn v).scs = k.scs := rfl

@[simp] theorem tickOn_prio (v : BitVec 32) (t : TcbPtr) :
    ((k.tickOn v).tcb t).prio = (k.tcb t).prio := by
  simp only [tickOn]
  split_ifs <;> rfl

@[simp] theorem tickOn_inMask (u v : BitVec 32) (t : TcbPtr) :
    (k.tickOn u).InMask v t ↔ k.InMask v t := Iff.rfl

theorem tickOn_timeOut (v : BitVec 32) (t : TcbPtr) :
    ((k.tickOn v).tcb t).timeOut =
      if k.InMask v t then (k.tcb t).timeOut - 1 else (k.tcb t).timeOut := by
  simp only [tickOn]
  split_ifs <;> rfl

theorem tickOn_zero : k.tickOn 0 = k := by
  have hexp : k.expired 0 = 0 := by
    refine BitMask.eq_zero_iff.mpr fun i => ?_
    rw [← Bool.not_eq_true, getLsbD_expired]
    simp
  have hmask (t : TcbPtr) : ¬k.InMask 0 t := by simp [inMask_iff]
  simp only [tickOn, hexp, hmask, if_false]
  refine Kernel.ext rfl rfl rfl ?_ ?_ rfl rfl rfl rfl rfl
  · exact BitVec.or_zero
  · exact (congrArg _ BitVec.not_zero).trans BitVec.and_allOnes

/-! ### Ticks on disjoint masks -/

section Disjoint

variable {u v : BitVec 32} (huv : ∀ i, ¬(u.getLsbD i = true ∧ v.getLsbD i = true))
  (hu : k.Indexed u) (hv : k.Indexed v)

include huv hu hv in
/-- A tick on `u` leaves the counters of the bits of `v` alone. -/
theorem tickOn_expired : (k.tickOn u).expired v = k.expired v := by
  refine BitMask.bits_injective (Set.ext fun i => ?_)
  simp only [BitMask.mem_bits, getLsbD_expired, tickOn_entry]
  refine and_congr_right fun hi => exists_congr fun t => and_congr_right fun ht => ?_
  have hnot : ¬k.InMask u t := by
    rw [inMask_iff]
    rintro ⟨j, hj, htj⟩
    have hij : i = j := by
      have h₁ := hv.eq_of_entry hi ht
      have h₂ := hu.eq_of_entry hj htj
      omega
    exact huv i ⟨hij ▸ hj, hi⟩
  rw [tickOn_timeOut, if_neg hnot]

theorem expired_or : k.expired (u ||| v) = k.expired u ||| k.expired v := by
  refine BitMask.bits_injective (Set.ext fun i => ?_)
  simp only [BitMask.mem_bits, BitVec.getLsbD_or, Bool.or_eq_true, getLsbD_expired]
  rw [← or_and_right]

theorem inMask_or {t : TcbPtr} : k.InMask (u ||| v) t ↔ k.InMask u t ∨ k.InMask v t := by
  simp only [inMask_iff, BitVec.getLsbD_or, Bool.or_eq_true, or_and_right, exists_or]

include huv hu hv in
/-- Ticks on disjoint masks make one tick on both. -/
theorem tickOn_tickOn : (k.tickOn u).tickOn v = k.tickOn (u ||| v) := by
  have hexp := tickOn_expired huv hu hv
  have hdisj (t : TcbPtr) : ¬(k.InMask u t ∧ k.InMask v t) := by
    simp only [inMask_iff]
    rintro ⟨⟨i, hi, hti⟩, j, hj, htj⟩
    have hij : i = j := by
      have h₁ := hu.eq_of_entry hi hti
      have h₂ := hv.eq_of_entry hj htj
      omega
    exact huv i ⟨hi, hij ▸ hj⟩
  have htcb : ((k.tickOn u).tickOn v).tcb = (k.tickOn (u ||| v)).tcb := by
    funext t
    refine OSThread.ext (by simp) ?_
    simp only [tickOn_timeOut, tickOn_inMask, inMask_or]
    by_cases hu' : k.InMask u t
    · have hv' : ¬k.InMask v t := fun h => hdisj t ⟨hu', h⟩
      simp [hu', hv']
    · simp [hu']
  refine Kernel.ext rfl rfl rfl ?_ ?_ htcb rfl rfl rfl rfl
  · change k.osReadySet ||| k.expired u ||| (k.tickOn u).expired v = _ ||| k.expired (u ||| v)
    rw [hexp, expired_or, BitVec.or_assoc]
  · change k.osDelayedSet &&& ~~~k.expired u &&& ~~~(k.tickOn u).expired v =
      _ &&& ~~~k.expired (u ||| v)
    rw [hexp, expired_or, BitVec.not_or, BitVec.and_assoc]

end Disjoint

/-- The tick on the bit of one thread. -/
theorem tickOn_single {i : ℕ} (hi : i < 32) {t : TcbPtr} (ht : k.entry (i + 1) = some t) :
    k.tickOn (1#32 <<< i) =
      let k := k.setTimeOut t ((k.tcb t).timeOut - 1)
      if (k.tcb t).timeOut = 0 then
        { k with
          osReadySet := k.osReadySet ||| 1#32 <<< i
          osDelayedSet := k.osDelayedSet &&& ~~~(1#32 <<< i) }
      else k := by
  have hmask (s : TcbPtr) : k.InMask (1#32 <<< i) s ↔ s = t := by
    simp only [inMask_iff, BitMask.getLsbD_one_shiftLeft hi, decide_eq_true_eq, exists_eq_left, ht,
      Option.some.injEq]
    exact eq_comm
  have htcb : (k.tickOn (1#32 <<< i)).tcb = (k.setTimeOut t ((k.tcb t).timeOut - 1)).tcb := by
    funext s
    simp only [tickOn, hmask, setTimeOut, Function.update_apply]
    split_ifs with hs
    · rw [hs]
    · rfl
  have htime : ((k.setTimeOut t ((k.tcb t).timeOut - 1)).tcb t).timeOut =
      (k.tcb t).timeOut - 1 := by
    simp [setTimeOut]
  have hexp : k.expired (1#32 <<< i) = if (k.tcb t).timeOut - 1 = 0 then 1#32 <<< i else 0 := by
    refine BitMask.bits_injective (Set.ext fun j => ?_)
    simp only [BitMask.mem_bits, getLsbD_expired, BitMask.getLsbD_one_shiftLeft hi,
      decide_eq_true_eq]
    split_ifs with h
    · rw [BitMask.getLsbD_one_shiftLeft hi, decide_eq_true_eq]
      exact ⟨fun hj => hj.1, fun hj => ⟨hj, t, hj ▸ ht, h⟩⟩
    · simp only [BitVec.ofNat_eq_ofNat, BitVec.getLsbD_zero, Bool.false_eq_true, iff_false]
      rintro ⟨rfl, s, hs, hs'⟩
      exact h (Option.some.inj (ht.symm.trans hs) ▸ hs')
  simp only [htime]
  split_ifs with h
  · rw [if_pos h] at hexp
    exact Kernel.ext rfl rfl rfl (congrArg (k.osReadySet ||| ·) hexp)
      (congrArg (k.osDelayedSet &&& ~~~·) hexp) htcb rfl rfl rfl rfl
  · rw [if_neg h] at hexp
    refine Kernel.ext rfl rfl rfl ?_ ?_ htcb rfl rfl rfl rfl
    · exact (congrArg (k.osReadySet ||| ·) hexp).trans BitVec.or_zero
    · refine (congrArg (k.osDelayedSet &&& ~~~·) hexp).trans ?_
      exact (congrArg (k.osDelayedSet &&& ·) BitVec.not_zero).trans BitVec.and_allOnes

end Kernel

/-! ### The loop -/

/-- An iteration ticks the thread of the highest bit and takes this bit out of the working
copy. -/
theorem osTickLoop_succ {k : Kernel} {pending : BitVec 32} (hk : k.Indexed pending)
    (hp : pending ≠ 0) (n : ℕ) :
    osTickLoop (n + 1) pending k =
      osTickLoop n (pending &&& ~~~(1#32 <<< BitMask.top pending))
        (k.tickOn (1#32 <<< BitMask.top pending)) := by
  obtain ⟨t, ht, hprio⟩ := hk _ (BitMask.getLsbD_top hp)
  have htop := BitMask.top_lt (by omega) pending
  rw [osTickLoop, if_neg hp, log2_eq hp, ok_bind, toNat_log2 hp, k.threadAt_eq (by omega), ht,
    ok_bind]
  simp only [deref, ok_bind, threadBit_eq hprio htop, Kernel.tickOn_single htop ht]

/-- The loop of `OS_Tick` is the tick on the mask, if it may take as many iterations as the
mask has positions. -/
theorem osTickLoop_eq {k : Kernel} {pending : BitVec 32} (hk : k.Indexed pending) (n : ℕ)
    (hn : ∀ i, pending.getLsbD i = true → i < n) :
    osTickLoop n pending k = .ok (k.tickOn pending) := by
  induction n generalizing pending k with
  | zero =>
    have hp : pending = 0 := BitMask.eq_zero_iff.mpr fun i =>
      Bool.eq_false_iff.mpr fun hi => absurd (hn i hi) (Nat.not_lt_zero i)
    rw [osTickLoop, if_pos hp, hp, Kernel.tickOn_zero]
    rfl
  | succ n ih =>
    by_cases hp : pending = 0
    · rw [osTickLoop, if_pos hp, hp, Kernel.tickOn_zero]
      rfl
    have htop := BitMask.top_lt (by omega) pending
    set one := 1#32 <<< BitMask.top pending with hone
    have hone_mem (i : ℕ) : one.getLsbD i = true ↔ i = BitMask.top pending := by
      rw [hone, BitMask.getLsbD_one_shiftLeft htop, decide_eq_true_eq]
    have hrest_mem (i : ℕ) : (pending &&& ~~~one).getLsbD i = true ↔
        pending.getLsbD i = true ∧ i ≠ BitMask.top pending := by
      rw [hone, BitMask.getLsbD_erase htop]
      simp
    have hone_idx : k.Indexed one := hk.mono fun i hi =>
      (hone_mem i).mp hi ▸ BitMask.getLsbD_top hp
    have hrest_idx : k.Indexed (pending &&& ~~~one) := hk.mono fun i hi => ((hrest_mem i).mp hi).1
    have hsplit : one ||| pending &&& ~~~one = pending := by
      refine BitMask.bits_injective (Set.ext fun i => ?_)
      rw [BitMask.mem_bits, BitMask.mem_bits, BitVec.getLsbD_or, Bool.or_eq_true, hone_mem,
        hrest_mem]
      by_cases hi : i = BitMask.top pending
      · simp [hi, BitMask.getLsbD_top hp]
      · simp [hi]
    -- the highest bit is gone, so that the others are below one position less
    have hlt (i : ℕ) (hi : (pending &&& ~~~one).getLsbD i = true) : i < n := by
      obtain ⟨hi, hne⟩ := (hrest_mem i).mp hi
      have hle := BitMask.le_top_of_getLsbD hi
      have := hn _ (BitMask.getLsbD_top hp)
      omega
    have hdisj (i : ℕ) : ¬(one.getLsbD i = true ∧ (pending &&& ~~~one).getLsbD i = true) := by
      rw [hone_mem, hrest_mem]
      tauto
    have hrest_tick : (k.tickOn one).Indexed (pending &&& ~~~one) := by
      simpa only [Kernel.Indexed, Kernel.tickOn_entry, Kernel.tickOn_prio] using hrest_idx
    rw [osTickLoop_succ hk hp, ih hrest_tick hlt, Kernel.tickOn_tickOn hdisj hone_idx hrest_idx,
      hsplit]

/-- `OS_Tick` ends and is one tick of all delayed threads. -/
theorem osTick_eq {k : Kernel} (hk : k.Indexed k.osDelayedSet) :
    osTick k = .ok (k.tickOn k.osDelayedSet) :=
  osTickLoop_eq hk 32 fun _ => BitVec.lt_of_getLsbD

end LiteRTOS
