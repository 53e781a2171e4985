import LiteRTOS.OS.Kernel

/-!
# What `OS_Sched` and the elementary steps of the kernel do

For each primitive of `LiteRTOS.OS.Kernel` that can fail, the value it has when it does not.
`OS_Sched` never fails: `Kernel.resched` is the state it leaves.

## Main definitions

* `Kernel.entry`: the entry of `OS_Thread` at an index, null beyond the table.
* `Kernel.selected`, `Kernel.resched`: the thread `OS_Sched` selects and the state it leaves.

## Main results

* `log2_eq`, `threadBit_eq`: the two bit computations of `Os.c`.
* `osSched_eq`: the result of `OS_Sched`.
-/

namespace LiteRTOS

@[simp] theorem ok_bind {α β : Type} (a : α) (f : α → Except Fault β) :
    (Except.ok a >>= f) = f a := rfl

@[simp] theorem error_bind {α β : Type} (e : Fault) (f : α → Except Fault β) :
    (Except.error e >>= f) = .error e := rfl

theorem bind_eq_ok {α β : Type} {x : Except Fault α} {f : α → Except Fault β} {b : β} :
    (do f (← x)) = .ok b ↔ ∃ a, x = .ok a ∧ f a = .ok b := by
  rcases x with e | a
  · simp
  · simp

theorem toOption_eq_some {α : Type} {x : Except Fault α} {a : α} :
    x.toOption = some a ↔ x = .ok a := by
  rcases x with e | b <;> simp [Except.toOption]

/-! ### Bits and priorities -/

theorem log2_eq {x : BitVec 32} (hx : x ≠ 0) : log2 x = .ok (32 - x.clz) := if_neg hx

/-- `LOG2` is one more than the position of the highest set bit. -/
theorem toNat_log2 {x : BitVec 32} (hx : x ≠ 0) : (32 - x.clz).toNat = BitMask.top x + 1 := by
  have hclz := BitMask.clz_toNat_lt hx
  rw [BitMask.top, BitVec.toNat_sub]
  change (2 ^ 32 - x.clz.toNat + 32) % 2 ^ 32 = _
  omega

/-- A priority in `1..32` is one more than a bit. -/
theorem exists_prio_eq {prio : BitVec 8} (hpos : 1 ≤ prio.toNat) (hle : prio.toNat ≤ 32) :
    ∃ i : Fin 32, prio.toNat = i + 1 := by
  refine ⟨⟨prio.toNat - 1, by omega⟩, ?_⟩
  change prio.toNat = prio.toNat - 1 + 1
  omega

theorem prio_pos {prio : BitVec 8} {i : ℕ} (h : prio.toNat = i + 1) : prio > 0 := by
  rw [gt_iff_lt, BitVec.lt_def, h]
  exact Nat.succ_pos i

/-- The bit of the priority `i + 1` is the bit `i`. -/
theorem threadBit_eq {prio : BitVec 8} {i : ℕ} (h : prio.toNat = i + 1) (hi : i < 32) :
    threadBit prio = .ok (1#32 <<< i) := by
  have hn : (prio.setWidth 32 - 1).toNat = i := by
    rw [BitVec.toNat_sub, BitVec.toNat_setWidth, h]
    change (2 ^ 32 - 1 + (i + 1) % 2 ^ 32) % 2 ^ 32 = i
    omega
  simp only [threadBit, shiftOne, hn, if_pos hi]

namespace Kernel

variable (k : Kernel)

/-- The entry of `OS_Thread` at the index `p`, null beyond the table. -/
def entry (p : ℕ) : Option TcbPtr := if h : p < 33 then k.osThread ⟨p, h⟩ else none

theorem threadAt_eq {p : ℕ} (h : p < 33) : k.threadAt p = .ok (k.entry p) := by
  simp [threadAt, entry, h]

variable {k} in
theorem lt_of_entry_eq {p : ℕ} {t : TcbPtr} (h : k.entry p = some t) : p < 33 := by
  by_contra hp
  simp [entry, hp] at h

variable {k} in
/-- An index without an entry is not the one of an entry. -/
theorem ne_of_entry {p q : ℕ} {t : TcbPtr} (hp : k.entry p = none) (hq : k.entry q = some t) :
    q ≠ p := by
  rintro rfl
  exact Option.some_ne_none t (hq.symm.trans hp)

/-! ### `OS_Sched` -/

/-- The thread that `OS_Sched` selects: the one registered for the highest ready priority, or the
idle thread. -/
def selected : Option TcbPtr :=
  if k.osReadySet = 0 then k.entry 0 else k.entry (BitMask.top k.osReadySet + 1)

/-- The state that `OS_Sched` leaves. -/
def resched : Kernel :=
  if k.selected = k.osCurr then k
  else { k with osNext := k.selected, scs := setPendSV k.scs }

end Kernel

/-- `OS_Sched` always ends. It sets `OS_Next` and pends PendSV when it does not select
`OS_Curr`. -/
theorem osSched_eq (k : Kernel) : osSched k = .ok k.resched := by
  have hsel : (k.osReadySet = 0 → k.threadAt 0 = .ok k.selected) ∧
      (k.osReadySet ≠ 0 → k.threadAt (BitMask.top k.osReadySet + 1) = .ok k.selected) := by
    have htop := BitMask.top_lt (by omega) k.osReadySet
    constructor <;> intro h
    · rw [k.threadAt_eq (by omega), Kernel.selected, if_pos h]
    · rw [k.threadAt_eq (by omega), Kernel.selected, if_neg h]
  have hpend : (if k.selected ≠ k.osCurr then
      (pure { k with osNext := k.selected, scs := setPendSV k.scs } : Except Fault Kernel)
      else pure k) = .ok k.resched := by
    rw [Kernel.resched]
    split_ifs <;> first | rfl | contradiction
  rw [osSched]
  split_ifs with h
  · rw [hsel.1 h]
    exact hpend
  · rw [log2_eq h, ok_bind, toNat_log2 h, hsel.2 h]
    exact hpend

namespace Kernel

variable (k : Kernel)

/-- `OS_Sched` writes `OS_Next` and the pending bit, and nothing else. -/
theorem resched_eq :
    k.resched = { k with osNext := k.resched.osNext, scs := k.resched.scs } := by
  rw [resched]
  split_ifs <;> rfl

@[simp] theorem resched_osCurr : k.resched.osCurr = k.osCurr := by rw [resched_eq]

@[simp] theorem resched_osThread : k.resched.osThread = k.osThread := by rw [resched_eq]

@[simp] theorem resched_osReadySet : k.resched.osReadySet = k.osReadySet := by rw [resched_eq]

@[simp] theorem resched_osDelayedSet : k.resched.osDelayedSet = k.osDelayedSet := by rw [resched_eq]

@[simp] theorem resched_tcb : k.resched.tcb = k.tcb := by rw [resched_eq]

@[simp] theorem resched_primask : k.resched.primask = k.primask := by rw [resched_eq]

@[simp] theorem resched_millisecCounter : k.resched.millisecCounter = k.millisecCounter := by
  rw [resched_eq]

@[simp] theorem resched_entry (p : ℕ) : k.resched.entry p = k.entry p := by simp [entry]

theorem resched_pendSV : k.resched.pendSV = (k.pendSV || decide (k.selected ≠ k.osCurr)) := by
  rw [resched]
  split_ifs with h <;> simp [pendSV, h]

theorem resched_osNext :
    k.resched.osNext = if k.selected = k.osCurr then k.osNext else k.selected := by
  rw [resched]
  split_ifs <;> rfl

end Kernel

end LiteRTOS
