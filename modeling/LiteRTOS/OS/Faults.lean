import LiteRTOS.OS.System
import LiteRTOS.OS.TickVisits

/-!
# When the functions of the kernel are defined

`OS_Sched` and `OS_Run` are defined in every state. The other functions follow pointers, shift by
priorities and index a table, and the file says for each of them in which states C defines what it
does. `OS_Tick` is the only loop: it looks a thread up by its bit and clears the bit of its
priority. So it depends on the greatest bit of `OS_DelayedSet` whose thread is not the one of this
priority. If there is none the loop ends, and otherwise it comes to this bit: there a null pointer
is followed, or a shift is out of range, or the loop visits the same thread for ever.

## Main definitions

* `Kernel.bitFault`: what goes wrong at a bit of `OS_DelayedSet`.

## Main results

* `osTickLoop_noEnd`: the loop that never clears its greatest bit.
* `osTickLoop_fault`: the loop comes to the greatest bit where something goes wrong.
* `kernel_defined_iff`: the states in which the functions are defined.
-/

namespace LiteRTOS

/-- What goes wrong in the loop of `OS_Tick` at the bit `i`, if anything does. -/
def Kernel.bitFault (k : Kernel) (i : ℕ) : Option Fault :=
  match k.entry (i + 1) with
  | none => some .nullPointer
  | some t =>
    if (k.tcb t).prio.toNat = i + 1 then none
    else if 1 ≤ (k.tcb t).prio.toNat ∧ (k.tcb t).prio.toNat ≤ 32 then some .noEnd
    else some .shiftRange

/-- The bits of `v` at which something goes wrong. -/
def Kernel.badBits (k : Kernel) (v : BitVec 32) : Set ℕ :=
  {i | v.getLsbD i = true ∧ k.bitFault i ≠ none}

variable {k k' : Kernel} {t : TcbPtr} {pending v : BitVec 32} {i j n : ℕ} {f : Fault}
  {prio : BitVec 8}

/-! ### One iteration -/

/-- A shift by a priority that is not in `1..32` is out of range. -/
theorem threadBit_error (h : ¬(1 ≤ prio.toNat ∧ prio.toNat ≤ 32)) :
    threadBit prio = .error .shiftRange := by
  have hn : ¬(prio.setWidth 32 - 1).toNat < 32 := by
    have hlt := prio.isLt
    rw [BitVec.toNat_sub, BitVec.toNat_setWidth]
    change ¬(2 ^ 32 - 1 + prio.toNat % 2 ^ 32) % 2 ^ 32 < 32
    omega
  rw [threadBit, shiftOne, if_neg hn]

theorem exists_threadBit_iff :
    (∃ bit, threadBit prio = .ok bit) ↔ 1 ≤ prio.toNat ∧ prio.toNat ≤ 32 := by
  constructor
  · rintro ⟨bit, hbit⟩
    by_contra h
    rw [threadBit_error h] at hbit
    cases hbit
  · rintro ⟨hpos, hle⟩
    obtain ⟨i, hi⟩ := exists_prio_eq hpos hle
    exact ⟨_, threadBit_eq hi i.isLt⟩

namespace Kernel

theorem bitFault_eq_none_iff :
    k.bitFault i = none ↔ ∃ t, k.entry (i + 1) = some t ∧ (k.tcb t).prio.toNat = i + 1 := by
  rw [bitFault]
  rcases k.entry (i + 1) with _ | t
  · simp
  · simp only [Option.some.injEq, exists_eq_left']
    split_ifs with h h' <;> simp [h]

theorem indexed_iff : k.Indexed v ↔ k.badBits v = ∅ := by
  simp only [badBits, Set.eq_empty_iff_forall_notMem, Set.mem_ofPred_eq, not_and, not_not,
    bitFault_eq_none_iff]
  rfl

/-- The three things that can go wrong. -/
theorem bitFault_eq_some (h : k.bitFault i = some f) :
    (k.entry (i + 1) = none ∧ f = .nullPointer) ∨ ∃ t, k.entry (i + 1) = some t ∧
      ((∃ j < 32, (k.tcb t).prio.toNat = j + 1 ∧ j ≠ i ∧ f = .noEnd) ∨
        (¬(1 ≤ (k.tcb t).prio.toNat ∧ (k.tcb t).prio.toNat ≤ 32) ∧ f = .shiftRange)) := by
  rw [bitFault] at h
  rcases ht : k.entry (i + 1) with _ | t <;> simp only [ht] at h
  · exact Or.inl ⟨rfl, (Option.some.inj h).symm⟩
  · refine Or.inr ⟨t, rfl, ?_⟩
    split_ifs at h with hne hmem
    · obtain ⟨j, hj⟩ := exists_prio_eq hmem.1 hmem.2
      exact Or.inl ⟨j, j.isLt, hj, fun heq => hne (heq ▸ hj), (Option.some.inj h).symm⟩
    · exact Or.inr ⟨hmem, (Option.some.inj h).symm⟩

/-- What goes wrong depends on the table and the priorities only. -/
theorem bitFault_congr (hentry : ∀ p, k'.entry p = k.entry p)
    (hprio : ∀ t, (k'.tcb t).prio = (k.tcb t).prio) : k'.bitFault i = k.bitFault i := by
  simp only [bitFault, hentry, hprio]

end Kernel

/-- An iteration visits the thread at the greatest bit and clears the bit of its priority. -/
theorem exists_osTickVisit (hp : pending ≠ 0)
    (ht : k.entry (BitMask.top pending + 1) = some t) (hprio : (k.tcb t).prio.toNat = j + 1)
    (hj : j < 32) : ∃ k', osTickVisit pending k = .ok (t, pending &&& ~~~(1#32 <<< j), k') ∧
      (∀ p, k'.entry p = k.entry p) ∧ ∀ u, (k'.tcb u).prio = (k.tcb u).prio := by
  have htop := BitMask.top_lt (by omega) pending
  rw [osTickVisit, log2_eq hp, ok_bind, toNat_log2 hp, k.threadAt_eq (by omega), ht, ok_bind]
  simp only [deref, ok_bind, threadBit_eq hprio hj]
  refine ⟨_, rfl, fun p => ?_, fun u => ?_⟩
  · split_ifs <;> rfl
  · have hset : ((k.setTimeOut t ((k.tcb t).timeOut - 1)).tcb u).prio = (k.tcb u).prio := by
      simp only [Kernel.setTimeOut, Function.update_apply]
      split_ifs with hu
      · rw [hu]
      · rfl
    split_ifs <;> exact hset

/-- An iteration at a bit without a thread, or with a thread whose priority cannot be shifted by. -/
theorem osTickVisit_error (hp : pending ≠ 0) (hf : k.bitFault (BitMask.top pending) = some f)
    (hne : f ≠ .noEnd) : osTickVisit pending k = .error f := by
  have htop := BitMask.top_lt (by omega) pending
  rw [osTickVisit, log2_eq hp, ok_bind, toNat_log2 hp, k.threadAt_eq (by omega), ok_bind]
  rcases Kernel.bitFault_eq_some hf with ⟨ht, rfl⟩ | ⟨t, ht, ⟨_, -, -, -, hend⟩ | ⟨hprio, rfl⟩⟩
  · rw [ht]
    rfl
  · exact absurd hend hne
  · rw [ht, deref, ok_bind, threadBit_error hprio]
    rfl

/-! ### The loop -/

/-- Clearing another bit than the greatest one leaves the greatest one. -/
theorem top_erase (hp : pending ≠ 0) (hj : j < 32) (hne : j ≠ BitMask.top pending) :
    pending &&& ~~~(1#32 <<< j) ≠ 0 ∧
      BitMask.top (pending &&& ~~~(1#32 <<< j)) = BitMask.top pending := by
  have hmem (i : ℕ) : (pending &&& ~~~(1#32 <<< j)).getLsbD i = true ↔
      pending.getLsbD i = true ∧ i ≠ j := by
    rw [BitMask.getLsbD_erase hj]
    simp
  have htop := (hmem _).mpr ⟨BitMask.getLsbD_top hp, hne.symm⟩
  refine ⟨BitMask.ne_zero_of_getLsbD htop, BitMask.top_eq_of_isGreatest ⟨htop, fun i hi => ?_⟩⟩
  exact BitMask.le_top_of_getLsbD ((hmem i).mp hi).1

/-- At a bit whose thread has another priority, the loop stays for ever. -/
theorem osTickLoop_noEnd (hp : pending ≠ 0) (hf : k.bitFault (BitMask.top pending) = some .noEnd)
    (n : ℕ) : osTickLoop n pending k = .error .noEnd := by
  induction n generalizing pending k with
  | zero =>
    rw [osTickLoop, if_neg hp]
    rfl
  | succ n ih =>
    obtain ⟨-, hnull⟩ | ⟨t, ht, ⟨j, hj, hprio, hne, -⟩ | ⟨-, hshift⟩⟩ := Kernel.bitFault_eq_some hf
    · cases hnull
    · obtain ⟨k', hv, hentry, hprio⟩ := exists_osTickVisit hp ht hprio hj
      obtain ⟨hp', htop⟩ := top_erase hp hj hne
      rw [osTickLoop_of_ne hp, hv]
      refine ih hp' ?_
      rw [htop, Kernel.bitFault_congr hentry hprio, hf]
    · cases hshift

/-- The loop comes to the greatest bit at which something goes wrong. -/
theorem osTickLoop_fault (hi : IsGreatest (k.badBits pending) i) (hf : k.bitFault i = some f)
    (hn : ∀ j, pending.getLsbD j = true → j < n) : osTickLoop n pending k = .error f := by
  induction n generalizing pending k with
  | zero => exact absurd (hn i hi.1.1) (Nat.not_lt_zero i)
  | succ n ih =>
    have hp : pending ≠ 0 := BitMask.ne_zero_of_getLsbD hi.1.1
    have htop := BitMask.top_lt (by omega) pending
    by_cases hbad : k.bitFault (BitMask.top pending) = none
    · -- the greatest bit is cleared, and the bits at which something goes wrong are the same
      obtain ⟨t, ht, hprio⟩ := Kernel.bitFault_eq_none_iff.mp hbad
      obtain ⟨k', hv, hentry, hprio'⟩ := exists_osTickVisit hp ht hprio htop
      have hmem (j : ℕ) : (pending &&& ~~~(1#32 <<< BitMask.top pending)).getLsbD j = true ↔
          pending.getLsbD j = true ∧ j ≠ BitMask.top pending := by
        rw [BitMask.getLsbD_erase htop]
        simp
      have hsame : k'.badBits (pending &&& ~~~(1#32 <<< BitMask.top pending)) =
          k.badBits pending := by
        ext j
        simp only [Kernel.badBits, Set.mem_ofPred_eq, hmem, Kernel.bitFault_congr hentry hprio']
        constructor
        · exact fun h => ⟨h.1.1, h.2⟩
        · exact fun h => ⟨⟨h.1, fun heq => h.2 (heq ▸ hbad)⟩, h.2⟩
      rw [osTickLoop_of_ne hp, hv]
      refine ih (hsame ▸ hi) ((Kernel.bitFault_congr hentry hprio').trans hf) fun j hj => ?_
      obtain ⟨hj, hne⟩ := (hmem j).mp hj
      have hle := BitMask.le_top_of_getLsbD hj
      have hlt := hn _ (BitMask.getLsbD_top hp)
      omega
    · obtain rfl : i = BitMask.top pending :=
        le_antisymm (BitMask.le_top_of_getLsbD hi.1.1) (hi.2 ⟨BitMask.getLsbD_top hp, hbad⟩)
      by_cases hend : f = .noEnd
      · exact hend ▸ osTickLoop_noEnd hp (hend ▸ hf) (n + 1)
      · rw [osTickLoop_of_ne hp, osTickVisit_error hp hf hend]
        rfl

/-- If something goes wrong there is a greatest bit at which it does. -/
theorem Kernel.exists_isGreatest_badBits (h : ¬k.Indexed v) :
    ∃ i f, IsGreatest (k.badBits v) i ∧ k.bitFault i = some f := by
  have hmask : BitMask.bits (BitMask.ofPred
      (fun i => v.getLsbD i && (k.bitFault i).isSome) 32) = k.badBits v := by
    ext i
    simp only [BitMask.mem_bits, BitMask.getLsbD_ofPred, Kernel.badBits, Set.mem_ofPred_eq,
      Bool.and_eq_true, decide_eq_true_eq, Option.isSome_iff_ne_none]
    exact ⟨fun hi => hi.2, fun hi => ⟨BitVec.lt_of_getLsbD hi.1, hi⟩⟩
  rw [Kernel.indexed_iff, ← hmask] at h
  obtain ⟨i, hi⟩ := Set.nonempty_iff_ne_empty.mpr h
  have htop := BitMask.isGreatest_top (BitMask.ne_zero_of_getLsbD hi)
  rw [hmask] at htop
  obtain ⟨f, hf⟩ := Option.ne_none_iff_exists'.mp htop.1.2
  exact ⟨_, f, htop, hf⟩

theorem exists_osTick_iff : (∃ k', osTick k = .ok k') ↔ k.Indexed k.osDelayedSet := by
  refine ⟨fun ⟨k', hk'⟩ => ?_, fun hk => ⟨_, osTick_eq hk⟩⟩
  by_contra h
  obtain ⟨i, f, hi, hf⟩ := Kernel.exists_isGreatest_badBits h
  have herror := osTickLoop_fault hi hf fun _ => BitVec.lt_of_getLsbD
  cases hk'.symm.trans herror

/-! ### The other functions -/

theorem exists_osThreadStart_iff :
    (∃ k', osThreadStart t prio k = .ok k') ↔ prio.toNat ≤ 32 := by
  constructor
  · rintro ⟨k', h⟩
    by_contra hlt
    rw [osThreadStart, dif_neg (by omega)] at h
    cases h
  · intro hle
    by_cases hpos : 1 ≤ prio.toNat
    · obtain ⟨i, hi⟩ := exists_prio_eq hpos hle
      exact ⟨_, osThreadStart_eq t hi⟩
    · have hnot : ¬prio > 0 := by
        rw [gt_iff_lt, BitVec.lt_def]
        exact fun h => hpos h
      rw [osThreadStart, dif_pos (by omega), if_neg hnot]
      exact ⟨_, rfl⟩

theorem exists_osMsDelay_iff (ticks : BitVec 32) : (∃ k', osMsDelay ticks k = .ok k') ↔
    ∃ t, k.osCurr = some t ∧ 1 ≤ (k.tcb t).prio.toNat ∧ (k.tcb t).prio.toNat ≤ 32 := by
  have hprio (t : TcbPtr) : ((k.disableIrq.setTimeOut t ticks).tcb t).prio = (k.tcb t).prio := by
    simp [Kernel.setTimeOut, Kernel.disableIrq]
  constructor
  · rintro ⟨k', h⟩
    obtain ⟨t, ht, h⟩ := bind_eq_ok.mp h
    obtain ⟨bit, hbit, -⟩ := bind_eq_ok.mp h
    have hmem := exists_threadBit_iff.mp ⟨bit, hbit⟩
    rw [hprio] at hmem
    refine ⟨t, ?_, hmem⟩
    change deref k.osCurr = .ok t at ht
    rcases hcurr : k.osCurr with _ | u <;> rw [hcurr] at ht
    · cases ht
    · exact congrArg some (Except.ok.inj ht)
  · rintro ⟨t, ht, hpos, hle⟩
    obtain ⟨i, hi⟩ := exists_prio_eq hpos hle
    obtain ⟨k', hk', -⟩ := osMsDelay_agree ht hi i.isLt ticks
    exact ⟨k', hk'⟩

theorem exists_pendSVHandler_iff : (∃ k', pendSVHandler k = .ok k') ↔ k.osNext ≠ none := by
  constructor
  · rintro ⟨k', h⟩ hnone
    obtain ⟨t, ht, -⟩ := bind_eq_ok.mp h
    change deref k.osNext = .ok t at ht
    rw [hnone] at ht
    cases ht
  · intro hne
    obtain ⟨t, ht⟩ := Option.ne_none_iff_exists'.mp hne
    exact ⟨_, pendSVHandler_eq ht⟩

theorem exists_sysTickHandler_iff :
    (∃ k', sysTickHandler k = .ok k') ↔ k.Indexed k.osDelayedSet := by
  constructor
  · rintro ⟨k', h⟩
    obtain ⟨k₁, hk₁, -⟩ := bind_eq_ok.mp h
    have hindexed := exists_osTick_iff.mp ⟨k₁, hk₁⟩
    exact hindexed
  · intro hk
    obtain ⟨k', hk', -⟩ := sysTickHandler_agree hk
    exact ⟨k', hk'⟩

/-- **When the functions are defined.** In any state whatsoever C defines `OSThread_Start`, with a
valid stack and control block, exactly if the priority is at most 32, `OS_msDelay` exactly if there
is a current thread and its priority is in `1..32`, and PendSV exactly if `OS_Next` is not null.
`OS_Tick` and SysTick are defined and end exactly if every bit of `OS_DelayedSet` has a thread of
its priority in `OS_Thread`. Otherwise what happens is decided at the greatest bit that has none: a
null pointer is followed, a shift is out of range, or the loop does not end, whatever the number of
iterations. -/
theorem kernel_defined_iff (k : Kernel) :
    (∀ t prio, (∃ k', osThreadStart t prio k = .ok k') ↔ prio.toNat ≤ 32) ∧
    (∀ ticks, (∃ k', osMsDelay ticks k = .ok k') ↔
      ∃ t, k.osCurr = some t ∧ 1 ≤ (k.tcb t).prio.toNat ∧ (k.tcb t).prio.toNat ≤ 32) ∧
    ((∃ k', pendSVHandler k = .ok k') ↔ k.osNext ≠ none) ∧
    ((∃ k', osTick k = .ok k') ↔ k.Indexed k.osDelayedSet) ∧
    ((∃ k', sysTickHandler k = .ok k') ↔ k.Indexed k.osDelayedSet) ∧
    ∀ i f, IsGreatest (k.badBits k.osDelayedSet) i → k.bitFault i = some f →
      sysTickHandler k = .error f ∧ ∀ n, 32 ≤ n → osTickLoop n k.osDelayedSet k = .error f := by
  refine ⟨fun _ _ => exists_osThreadStart_iff, exists_osMsDelay_iff, exists_pendSVHandler_iff,
    exists_osTick_iff, exists_sysTickHandler_iff, fun i f hi hf => ⟨?_, fun n hn => ?_⟩⟩
  · have herror : osTick { k with
        portC := pc2On k.portC, millisecCounter := k.millisecCounter + 1 } = .error f :=
      osTickLoop_fault (k := { k with
        portC := pc2On k.portC, millisecCounter := k.millisecCounter + 1 }) hi hf
        fun _ => BitVec.lt_of_getLsbD
    rw [sysTickHandler, herror]
    rfl
  · exact osTickLoop_fault hi hf fun j hj => (BitVec.lt_of_getLsbD hj).trans_le hn

end LiteRTOS
