import LiteRTOS.Core.ThreadStart
import LiteRTOS.OS.Sched

/-!
# How much of its storage `OSThread_Start` uses

`OSThread_Start` rounds the end of the storage down and its start up to 8 bytes, pushes sixteen
words from the end on and fills the words below them down to the start. It does not look at the
size of the storage. Its stores to the stack stay in the storage exactly if the sixteen words fit,
and then they fill all of the rounded storage. The registration that follows writes to the table
`OS_Thread`, to the control block and to `OS_ReadySet`, and leaves the stack as it is if these are
objects of their own. It does not look at the priority either, and an index beyond the table leaves
its behaviour undefined.

## Main definitions

* `StartApart`: the table, the ready set, the control block and the storage do not overlap.
* `ThreadRegistered`: the memory after the registration.
* `StackPrepared`: the memory after `OSThread_Start` for a stack on which the words fit.

## Main results

* `exists_osThreadStartRegister`: the registration of a priority up to 32.
* `stack_prepared_iff`: where the stores to the stack are, and what `OSThread_Start` leaves.
-/

namespace LiteRTOS

open ByteMemory

/-- The objects that `OSThread_Start` writes to have no byte in common: the table `OS_Thread`,
`OS_ReadySet`, the control block and the storage. -/
structure StartApart (osThread osReadySet tcb stkStorage stkSize : BitVec 32) : Prop where
  thread_readySet : BlocksApart osThread (4 * 33) osReadySet 4
  thread_tcb : BlocksApart osThread (4 * 33) tcb 12
  readySet_tcb : BlocksApart osReadySet 4 tcb 12
  stack_thread : BlocksApart stkStorage stkSize.toNat osThread (4 * 33)
  stack_readySet : BlocksApart stkStorage stkSize.toNat osReadySet 4
  stack_tcb : BlocksApart stkStorage stkSize.toNat tcb 12

/-- From the memory `m` the registration has made `m'`: the entry of the priority in `OS_Thread`,
`Prio` and, unless the thread is the idle thread, the bit in `OS_ReadySet` are written, and the
rest of the memory is as before. -/
structure ThreadRegistered (osThread osReadySet tcb : BitVec 32) (prio : BitVec 8)
    (m m' : ByteMemory) : Prop where
  entry : load32 m' (osThread + BitVec.ofNat 32 (4 * prio.toNat)) = tcb
  prio_eq : load8 m' (tcb + 4) = prio
  ready : prio ≠ 0 → load32 m' osReadySet = load32 m osReadySet ||| 1#32 <<< (prio.toNat - 1)
  unchanged : ∀ b : BitVec 32, 4 ≤ (b - (osThread + BitVec.ofNat 32 (4 * prio.toNat))).toNat →
    b ≠ tcb + 4 → prio = 0 ∨ 4 ≤ (b - osReadySet).toNat → m' b = m b

/-- From the memory `m` `OSThread_Start` has made `m'`: the control block points to the sixteen
words at the end of the rounded storage, the pattern is in all words below them, the thread is
registered, and the rest of the memory is as before. -/
structure StackPrepared (osThread osReadySet tcb : BitVec 32) (prio : BitVec 8)
    (handler stkStorage stkSize : BitVec 32) (m m' : ByteMemory) : Prop where
  pointer : load32 m' tcb = stackTop stkStorage stkSize - 0x40
  aligned : (stackTop stkStorage stkSize - 0x40).toNat % 8 = 0
  /-- R4 to R11, R0 to R3, R12, LR, PC and xPSR. -/
  frame : Words m' (stackTop stkStorage stkSize - 0x40)
    [0x04, 0x05, 0x06, 0x07, 0x08, 0x09, 0x0A, 0x0B, 0x00, 0x01, 0x02, 0x03, 0x0C, 0x0E, handler,
      1#32 <<< 24]
  fill : ∀ a : BitVec 32, a.toNat % 4 = 0 → (stackLimit stkStorage).toNat ≤ a.toNat →
    a.toNat + 4 ≤ (stackTop stkStorage stkSize - 0x40).toNat → load32 m' a = 0xFACEB00C
  entry : load32 m' (osThread + BitVec.ofNat 32 (4 * prio.toNat)) = tcb
  prio_eq : load8 m' (tcb + 4) = prio
  ready : prio ≠ 0 → load32 m' osReadySet = load32 m osReadySet ||| 1#32 <<< (prio.toNat - 1)
  /-- What is written are the rounded storage, the pointer, the entry, `Prio` and `OS_ReadySet`. -/
  unchanged : ∀ b : BitVec 32,
    b.toNat < (stackLimit stkStorage).toNat ∨ (stackTop stkStorage stkSize).toNat ≤ b.toNat →
    4 ≤ (b - tcb).toNat → 4 ≤ (b - (osThread + BitVec.ofNat 32 (4 * prio.toNat))).toNat →
    b ≠ tcb + 4 → prio = 0 ∨ 4 ≤ (b - osReadySet).toNat → m' b = m b

variable {osThread osReadySet tcb handler stkStorage stkSize : BitVec 32} {prio : BitVec 8}

/-! ### The set-up -/

/-- All words pushed and filled lie in the storage if and only if the sixteen words fit. -/
theorem stores_inside_iff {as : List (BitVec 32)} (hpos : 0x40 ≤ stkStorage.toNat)
    (hend : stkStorage.toNat + stkSize.toNat < 2 ^ 32)
    (has : Prefill (stackLimit stkStorage) (stackTop stkStorage stkSize - 0x40 - 4) as) :
    (∀ a ∈ (pushes (stackTop stkStorage stkSize) (initialWords handler)).map Prod.fst ++ as,
      stkStorage.toNat ≤ a.toNat ∧ a.toNat + 4 ≤ stkStorage.toNat + stkSize.toNat) ↔
    stkStorage.toNat + 0x40 ≤ (stackTop stkStorage stkSize).toNat := by
  have htop := toNat_stackTop hend
  constructor
  · intro h
    -- the word pushed last is at the lowest address
    have hlast : stackTop stkStorage stkSize - 0x40 ∈
        (pushes (stackTop stkStorage stkSize) (initialWords handler)).map Prod.fst :=
      mem_map_fst_pushes.mpr ⟨15, by change 15 < 16; omega, rfl⟩
    have := (h _ (List.mem_append_left _ hlast)).1
    bv_omega
  · intro hroom a ha
    rcases List.mem_append.mp ha with ha | ha
    · have := mem_pushes_initialWords hroom ha
      omega
    · have := (mem_prefill_iff hroom (by omega) hend has).mp ha
      have hlimit : (stackLimit stkStorage).toNat = _ := toNat_stackLimit (by omega) (by omega)
      omega

/-! ### The registration -/

/-- The entry of a priority is one of the words of the table. -/
theorem apart_entry {a : BitVec 32} {n : ℕ} (h : BlocksApart osThread (4 * 33) a n)
    (hprio : prio.toNat ≤ 32) :
    BlocksApart (osThread + BitVec.ofNat 32 (4 * prio.toNat)) 4 a n :=
  h.sub (by omega) (by bv_omega)

/-- A priority beyond the table. -/
theorem osThreadStartRegister_of_lt (hprio : 32 < prio.toNat) (m : ByteMemory) :
    osThreadStartRegister osThread osReadySet tcb prio m = .error .tableBounds :=
  if_neg (by omega)

/-- The store to `Prio` leaves the entry written before it alone. -/
theorem load32_entry_store8 (hprio : prio.toNat ≤ 32)
    (hapart : StartApart osThread osReadySet tcb stkStorage stkSize) (m : ByteMemory) :
    load32 (store8 (store32 m (osThread + BitVec.ofNat 32 (4 * prio.toNat)) tcb) (tcb + 4) prio)
      (osThread + BitVec.ofNat 32 (4 * prio.toNat)) = tcb := by
  have hbyte := (apart_entry hapart.thread_tcb hprio).le_of_lt (c := tcb + 4) (by bv_omega)
  rw [load32_store8_of_notMem hbyte, load32_store32_self]

/-- The registration of a priority in the table ends, and the thread is registered if the objects
do not overlap. -/
theorem exists_osThreadStartRegister (hprio : prio.toNat ≤ 32) (m : ByteMemory) :
    ∃ m', osThreadStartRegister osThread osReadySet tcb prio m = .ok m' ∧
      (StartApart osThread osReadySet tcb stkStorage stkSize →
        ThreadRegistered osThread osReadySet tcb prio m m') := by
  rw [osThreadStartRegister, if_pos (by omega)]
  rcases eq_or_ne prio 0 with hzero | hne
  · rw [if_neg (hzero ▸ BitVec.lt_irrefl 0)]
    refine ⟨_, rfl, fun hapart => ⟨load32_entry_store8 hprio hapart m, if_pos rfl,
      fun h => absurd hzero h, fun b hb hb' _ => ?_⟩⟩
    rw [store8_of_ne hb', store32_of_notMem hb]
  · obtain ⟨i, hi⟩ := exists_prio_eq
      (Nat.pos_of_ne_zero fun h => hne (BitVec.eq_of_toNat_eq h)) hprio
    rw [if_pos (prio_pos hi), threadBit_eq hi i.isLt]
    refine ⟨_, rfl, fun hapart => ?_⟩
    have hentry := apart_entry hapart.thread_readySet hprio
    have hbyte : 4 ≤ (tcb + 4 - osReadySet).toNat := hapart.readySet_tcb.le_of_lt (by bv_omega)
    refine ⟨?_, ?_, fun _ => ?_, fun b hb hb' hb'' => ?_⟩
    · rw [load32_store32_of_apart hentry.symm, load32_entry_store8 hprio hapart m]
    · rw [load8, store32_of_notMem hbyte]
      exact if_pos rfl
    · rw [load32_store32_self, load32_store8_of_notMem hbyte, load32_store32_of_apart hentry, hi,
        Nat.add_sub_cancel]
    · rw [store32_of_notMem (hb''.resolve_left hne), store8_of_ne hb', store32_of_notMem hb]

/-- The registration leaves a block alone that has no byte of what it writes. -/
theorem ThreadRegistered.sameOn {m m' : ByteMemory} {a : BitVec 32} {n : ℕ}
    (h : ThreadRegistered osThread osReadySet tcb prio m m')
    (hentry : BlocksApart (osThread + BitVec.ofNat 32 (4 * prio.toNat)) 4 a n)
    (hbyte : BlocksApart (tcb + 4) 1 a n) (hready : BlocksApart osReadySet 4 a n) :
    SameOn a n m m' := fun b hb => by
  refine h.unchanged b (hentry.le_of_lt hb) ?_ (Or.inr (hready.le_of_lt hb))
  rintro rfl
  have := hbyte.le_of_lt hb
  rw [BitVec.sub_self] at this
  exact absurd this (by decide)

/-- The registration leaves the stack alone. -/
theorem ThreadRegistered.sameOn_stack {m m' : ByteMemory}
    (h : ThreadRegistered osThread osReadySet tcb prio m m') (hprio : prio.toNat ≤ 32)
    (hapart : StartApart osThread osReadySet tcb stkStorage stkSize) :
    SameOn stkStorage stkSize.toNat m m' :=
  h.sameOn (apart_entry hapart.stack_thread.symm hprio)
    (hapart.stack_tcb.symm.sub (by omega) (by bv_omega)) hapart.stack_readySet.symm

/-- The registration leaves the pointer in the control block alone. -/
theorem ThreadRegistered.sameOn_pointer {m m' : ByteMemory}
    (h : ThreadRegistered osThread osReadySet tcb prio m m') (hprio : prio.toNat ≤ 32)
    (hapart : StartApart osThread osReadySet tcb stkStorage stkSize) : SameOn tcb 4 m m' := by
  have hinside : (tcb - tcb).toNat + 4 ≤ 12 := by bv_omega
  refine h.sameOn ?_ ?_ ?_
  · exact ((apart_entry hapart.thread_tcb hprio).symm.sub (by omega) hinside).symm
  · constructor <;> bv_omega
  · exact (hapart.readySet_tcb.symm.sub (by omega) hinside).symm

/-! ### The whole of `OSThread_Start` -/

/-- `OSThread_Start` is the stores of the set-up and then the registration. -/
theorem osThreadStartMemory_eq {as : List (BitVec 32)} (osThread osReadySet tcb : BitVec 32)
    (prio : BitVec 8) (handler : BitVec 32)
    (has : Prefill (stackLimit stkStorage) (stackTop stkStorage stkSize - 0x40 - 4) as)
    (hlen : as.length < 2 ^ 30) (m : ByteMemory) :
    osThreadStartMemory osThread osReadySet tcb prio handler stkStorage stkSize m =
      osThreadStartRegister osThread osReadySet tcb prio
        (storeAll m (startStores tcb handler stkStorage stkSize as)) := by
  rw [osThreadStartMemory, osThreadStartStack_eq tcb handler has hlen m, ok_bind]

/-- The stores of the set-up and the registration prepare a stack on which the sixteen words fit. -/
theorem stackPrepared_startStores {as : List (BitVec 32)} {m m' : ByteMemory}
    (hprio : prio.toNat ≤ 32) (hne : 0 < stkStorage.toNat)
    (hend : stkStorage.toNat + stkSize.toNat < 2 ^ 32)
    (hroom : stkStorage.toNat + 0x40 ≤ (stackTop stkStorage stkSize).toNat)
    (has : Prefill (stackLimit stkStorage) (stackTop stkStorage stkSize - 0x40 - 4) as)
    (hapart : StartApart osThread osReadySet tcb stkStorage stkSize)
    (h : ThreadRegistered osThread osReadySet tcb prio
      (storeAll m (startStores tcb handler stkStorage stkSize as)) m') :
    StackPrepared osThread osReadySet tcb prio handler stkStorage stkSize m m' := by
  have htop := toNat_stackTop hend
  have hlimit := toNat_stackLimit hne (by omega)
  have htcb : BlocksApart stkStorage stkSize.toNat tcb 4 :=
    (hapart.stack_tcb.symm.sub (by omega) (by bv_omega)).symm
  have hstack := h.sameOn_stack hprio hapart
  refine ⟨?_, ?_, ?_, fun a ha hlow hhigh => ?_, h.entry, h.prio_eq, fun hpos => ?_,
    fun b hb hb₁ hb₂ hb₃ hb₄ => ?_⟩
  · exact (h.sameOn_pointer hprio hapart).load32_eq.trans
      (load32_tcb_startStores hroom hne hend has htcb)
  · bv_omega
  · refine (words_startStores hroom hne hend has htcb).of_sameOn (hstack.sub ?_)
    change _ + 4 * 16 ≤ _
    bv_omega
  · refine (hstack.sub (by bv_omega)).load32_eq.trans ?_
    exact load32_startStores_of_lt hroom hne hend has ha hlow (by bv_omega)
  · -- the set-up has left `OS_ReadySet` alone
    refine (h.ready hpos).trans (congrArg (· ||| _) (SameOn.load32_eq fun b hb => ?_))
    have hb₁ := hapart.readySet_tcb.symm.le_of_lt hb
    have hb₂ := hapart.stack_readySet.le_of_lt hb
    exact storeAll_startStores_of_notMem hroom hne hend has (by omega) (by bv_omega)
  · exact (h.unchanged b hb₂ hb₃ hb₄).trans
      (storeAll_startStores_of_notMem hroom hne hend has hb₁ hb)

/-- `OSThread_Start` ends for every priority in the table. It ends with the stack prepared and the
thread registered if the objects do not overlap and the sixteen words fit. -/
theorem exists_osThreadStartMemory (handler : BitVec 32) (hprio : prio.toNat ≤ 32)
    (hne : 0 < stkStorage.toNat) (hend : stkStorage.toNat + stkSize.toNat < 2 ^ 32)
    (hend' : stkStorage.toNat + 8 ≤ 2 ^ 32) (m : ByteMemory) :
    ∃ m', osThreadStartMemory osThread osReadySet tcb prio handler stkStorage stkSize m = .ok m' ∧
      (StartApart osThread osReadySet tcb stkStorage stkSize →
        stkStorage.toNat + 64 ≤ (stackTop stkStorage stkSize).toNat →
        StackPrepared osThread osReadySet tcb prio handler stkStorage stkSize m m') := by
  obtain ⟨as, has, hlen⟩ := exists_prefill_start stkStorage stkSize hne hend'
  obtain ⟨m', hm', hregistered⟩ := exists_osThreadStartRegister hprio
    (storeAll m (startStores tcb handler stkStorage stkSize as))
  refine ⟨m', (osThreadStartMemory_eq _ _ _ _ _ has hlen m).trans hm', fun hapart hroom => ?_⟩
  exact stackPrepared_startStores hprio hne hend hroom has hapart (hregistered hapart)

/-- **The stack is prepared in its storage if and only if the sixteen words fit.** Let the storage
start at 64 or above and end at `2^32 - 8` or below. The loop of the pre-fill ends, then the thread
is registered, and all words written to the stack lie in the storage exactly if its end, rounded
down, is 64 bytes or more above its start. In this case, with the control block, `OS_Thread` and
`OS_ReadySet` outside the storage, the memory in which `OSThread_Start` ends has the stack prepared.
It ends so for every priority that has an entry in the table; the others leave the table. -/
theorem stack_prepared_iff (osThread osReadySet tcb : BitVec 32) (prio : BitVec 8)
    (handler : BitVec 32) (hpos : 64 ≤ stkStorage.toNat)
    (hend : stkStorage.toNat + stkSize.toNat ≤ 2 ^ 32 - 8) (m : ByteMemory) :
    (stackTop stkStorage stkSize).toNat = (stkStorage.toNat + stkSize.toNat) / 8 * 8 ∧
    (stackLimit stkStorage).toNat = (stkStorage.toNat + 7) / 8 * 8 ∧
    ∃ as, Prefill (stackLimit stkStorage) (stackTop stkStorage stkSize - 0x40 - 4) as ∧
      osThreadStartMemory osThread osReadySet tcb prio handler stkStorage stkSize m =
        osThreadStartRegister osThread osReadySet tcb prio
          (storeAll m (startStores tcb handler stkStorage stkSize as)) ∧
      ((∀ a ∈ (pushes (stackTop stkStorage stkSize) (initialWords handler)).map Prod.fst ++ as,
        stkStorage.toNat ≤ a.toNat ∧ a.toNat + 4 ≤ stkStorage.toNat + stkSize.toNat) ↔
        stkStorage.toNat + 64 ≤ (stackTop stkStorage stkSize).toNat) ∧
      (32 < prio.toNat → osThreadStartMemory osThread osReadySet tcb prio handler stkStorage
        stkSize m = .error .tableBounds) ∧
      (prio.toNat ≤ 32 → ∃ m',
        osThreadStartMemory osThread osReadySet tcb prio handler stkStorage stkSize m = .ok m' ∧
        (StartApart osThread osReadySet tcb stkStorage stkSize →
          stkStorage.toNat + 64 ≤ (stackTop stkStorage stkSize).toNat →
          StackPrepared osThread osReadySet tcb prio handler stkStorage stkSize m m')) := by
  have htop : (stackTop stkStorage stkSize).toNat = _ := toNat_stackTop (by omega)
  have hlimit : (stackLimit stkStorage).toNat = _ := toNat_stackLimit (by omega) (by omega)
  obtain ⟨as, has, hlen⟩ := exists_prefill_start stkStorage stkSize (by omega) (by omega)
  have heq := osThreadStartMemory_eq osThread osReadySet tcb prio handler has hlen m
  exact ⟨htop, by omega, as, has, heq, stores_inside_iff hpos (by omega) has,
    fun hprio => heq.trans (osThreadStartRegister_of_lt hprio _),
    fun hprio => exists_osThreadStartMemory handler hprio (by omega) (by omega) (by omega) m⟩

/-- A thread of priority 5 with a storage of 256 bytes that does not start at a multiple of 8. -/
theorem stack_prepared_256 : ∃ m',
    osThreadStartMemory 0x20000800 0x20000900 0x20001000 5 0x08000101 0x20000004 0x100
      (fun _ => 0) = .ok m' ∧
    StackPrepared 0x20000800 0x20000900 0x20001000 5 0x08000101 0x20000004 0x100
      (fun _ => 0) m' := by
  have hpos : 64 ≤ (0x20000004#32).toNat := by decide
  have hend : (0x20000004#32).toNat + (0x100#32).toNat ≤ 2 ^ 32 - 8 := by decide
  obtain ⟨-, -, as, -, -, -, -, hprepared⟩ :=
    stack_prepared_iff 0x20000800 0x20000900 0x20001000 5 0x08000101 hpos hend fun _ => 0
  obtain ⟨m', hm', h⟩ := hprepared (by decide)
  exact ⟨m', hm', h (by constructor <;> decide) (by decide)⟩

end LiteRTOS
