import LiteRTOS.Core.PendSV
import LiteRTOS.OS.Kernel

/-!
# The stack that `OSThread_Start` sets up

`OSThread_Start` writes to the end of the stack storage the sixteen words that `PendSV_Handler`
and the exception return pop when they start the thread, stores their address in the control
block, and fills the storage below them with a pattern. Then it registers the thread: it writes to
the table of threads, to the control block and to the ready set.

## Main definitions

* `osThreadStartStack`: `OSThread_Start` up to the registration of the thread.
* `osThreadStartRegister`, `osThreadStartMemory`: the registration, and all of `OSThread_Start`.
* `startContext`: the registers with which a thread starts.
* `Prefill`, `startStores`: the loop of the pre-fill, and all the stores of the set-up.

## Main results

* `osThreadStartStack_eq`: the set-up is the list of its stores.
* `exists_osThreadStartStack`: the loop of the pre-fill ends, and what the memory is then.
* `unstack_of_initialWords`: the words that are set up are taken back as `startContext`.
-/

namespace LiteRTOS

open ByteMemory

section ThreadStart

variable (tcb handler stkStorage stkSize : BitVec 32)

/-- The end of the storage rounded down to 8 bytes. -/
def stackTop : BitVec 32 := (stkStorage + stkSize) / 8 * 8

/-- The start of the storage rounded up to 8 bytes. -/
def stackLimit : BitVec 32 := ((stkStorage - 1) / 8 + 1) * 8

/-- The words in the order in which they are pushed: xPSR, PC, LR, R12, R3 to R0, R11 to R4. -/
def initialWords : List (BitVec 32) :=
  [1#32 <<< 24, handler, 0x0E, 0x0C, 0x03, 0x02, 0x01, 0x00,
    0x0B, 0x0A, 0x09, 0x08, 0x07, 0x06, 0x05, 0x04]

/-- The `for` loop of the pre-fill, cut off after `fuel` iterations. -/
def prefill (stckLimit : BitVec 32) : ℕ → BitVec 32 → ByteMemory → Except Fault ByteMemory
  | 0, _, _ => throw .noEnd
  | fuel + 1, p, m =>
    if stckLimit ≤ p then prefill stckLimit fuel (p - 4) (store32 m p 0xFACEB00C)
    else return m

/-- `OSThread_Start` up to the registration of the thread. There are `2 ^ 30` words, so that a loop
that ends takes no more iterations. -/
def osThreadStartStack (m : ByteMemory) : Except Fault ByteMemory := do
  let stckPointer := stackTop stkStorage stkSize
  let (m, stckPointer) := (initialWords handler).foldl pushWord (m, stckPointer)
  let m := store32 m tcb stckPointer
  let stckLimit := ((stkStorage - 1) / 8 + 1) * 8
  prefill stckLimit (2 ^ 30) (stckPointer - 4) m

/-- The registration of the thread by `OSThread_Start`. The index is checked against the end of
`OS_Thread`, as C leaves it undefined beyond. -/
def osThreadStartRegister (osThread osReadySet tcb : BitVec 32) (prio : BitVec 8)
    (m : ByteMemory) : Except Fault ByteMemory := do
  if prio.toNat < 33 then
    let m := store32 m (osThread + BitVec.ofNat 32 (4 * prio.toNat)) tcb
    let m := store8 m (tcb + 4) prio
    if prio > 0 then
      let bit ← threadBit prio
      return store32 m osReadySet (load32 m osReadySet ||| bit)
    else
      return m
  else
    throw .tableBounds

/-- `OSThread_Start`, with `OS_Thread` at `osThread` and `OS_ReadySet` at `osReadySet`. -/
def osThreadStartMemory (osThread osReadySet tcb : BitVec 32) (prio : BitVec 8)
    (handler stkStorage stkSize : BitVec 32) (m : ByteMemory) : Except Fault ByteMemory := do
  let m ← osThreadStartStack tcb handler stkStorage stkSize m
  osThreadStartRegister osThread osReadySet tcb prio m

/-- The registers with which the thread starts. -/
def startContext : Context where
  r := fun i => BitVec.ofNat 32 i
  sp := stackTop stkStorage stkSize
  lr := 0x0E
  pc := handler &&& ~~~1#32
  xpsr := 1#32 <<< 24

end ThreadStart

/-! ### The pre-fill -/

/-- The `for` loop as it stands: from the pointer given, it writes to the addresses of the list one
after the other and ends. -/
inductive Prefill (stckLimit : BitVec 32) : BitVec 32 → List (BitVec 32) → Prop
  | done {p : BitVec 32} (h : ¬stckLimit ≤ p) : Prefill stckLimit p []
  | write {p : BitVec 32} {as : List (BitVec 32)} (h : stckLimit ≤ p)
      (hr : Prefill stckLimit (p - 4) as) : Prefill stckLimit p (p :: as)

section Prefill

variable {stckLimit p : BitVec 32} {as : List (BitVec 32)} {n : ℕ}

/-- The stores of the loop that is cut off after more iterations than the loop takes. -/
theorem Prefill.eq_storeAll (h : Prefill stckLimit p as) (hn : as.length < n) (m : ByteMemory) :
    prefill stckLimit n p m = .ok (storeAll m (as.map fun a => (a, 0xFACEB00C))) := by
  induction h generalizing n m with
  | done h =>
    obtain ⟨n, rfl⟩ := Nat.exists_eq_succ_of_ne_zero (Nat.ne_of_gt (Nat.zero_lt_of_lt hn))
    rw [prefill, if_neg h]
    rfl
  | write h hr ih =>
    obtain ⟨n, rfl⟩ := Nat.exists_eq_succ_of_ne_zero (Nat.ne_of_gt (Nat.zero_lt_of_lt hn))
    rw [prefill, if_pos h]
    exact ih (Nat.lt_of_succ_lt_succ hn) _

/-- The loop ends. -/
theorem exists_prefill (hlimit : 4 ≤ stckLimit.toNat) (hp : p.toNat % 4 = 0)
    (hn : p.toNat < 4 * n) : ∃ as, Prefill stckLimit p as ∧ as.length < n := by
  induction n generalizing p with
  | zero => omega
  | succ n ih =>
    by_cases hle : stckLimit ≤ p
    · have hle' : stckLimit.toNat ≤ p.toNat := hle
      have hsub : (p - 4).toNat = p.toNat - 4 := by bv_omega
      obtain ⟨as, has, hlen⟩ := ih (p := p - 4) (by omega) (by omega)
      exact ⟨p :: as, .write hle has, Nat.succ_lt_succ hlen⟩
    · exact ⟨[], .done hle, Nat.succ_pos n⟩

/-- The loop writes to the aligned words from the limit up to its start. -/
theorem Prefill.mem_iff (h : Prefill stckLimit p as) (hlimit : 4 ≤ stckLimit.toNat)
    (hp : p.toNat % 4 = 0) {a : BitVec 32} : a ∈ as ↔
      a.toNat % 4 = 0 ∧ stckLimit.toNat ≤ a.toNat ∧ a.toNat ≤ p.toNat := by
  induction h with
  | @done p h =>
    have hlt : ¬stckLimit.toNat ≤ p.toNat := h
    refine iff_of_false List.not_mem_nil ?_
    omega
  | @write p as h hr ih =>
    have hle : stckLimit.toNat ≤ p.toNat := h
    have hsub : (p - 4).toNat = p.toNat - 4 := by bv_omega
    rw [List.mem_cons, ih (by omega), hsub, ← BitVec.toNat_inj]
    omega

end Prefill

/-! ### The whole set-up -/

section ThreadStart

variable {tcb handler stkStorage stkSize : BitVec 32}

theorem toNat_stackTop (hend : stkStorage.toNat + stkSize.toNat < 2 ^ 32) :
    (stackTop stkStorage stkSize).toNat = (stkStorage.toNat + stkSize.toNat) / 8 * 8 := by
  have hdiv : ((stkStorage + stkSize) / 8).toNat = (stkStorage.toNat + stkSize.toNat) / 8 := by
    rw [BitVec.toNat_udiv, BitVec.toNat_add, Nat.mod_eq_of_lt hend]
    rfl
  rw [stackTop, BitVec.toNat_mul, hdiv]
  refine Nat.mod_eq_of_lt ?_
  change _ * 8 < _
  omega

theorem toNat_stackLimit (hne : 0 < stkStorage.toNat) (hend : stkStorage.toNat + 8 ≤ 2 ^ 32) :
    (stackLimit stkStorage).toNat = ((stkStorage.toNat - 1) / 8 + 1) * 8 := by
  have hsub : (stkStorage - 1).toNat = stkStorage.toNat - 1 := by bv_omega
  have hdiv : ((stkStorage - 1) / 8).toNat = (stkStorage.toNat - 1) / 8 := by
    rw [BitVec.toNat_udiv, hsub]
    rfl
  rw [stackLimit, BitVec.toNat_mul, BitVec.toNat_add, hdiv]
  change ((stkStorage.toNat - 1) / 8 + 1) % 2 ^ 32 * 8 % 2 ^ 32 = _
  omega

/-- The loop of the set-up ends, whatever the size of the storage. -/
theorem exists_prefill_start (stkStorage stkSize : BitVec 32) (hne : 0 < stkStorage.toNat)
    (hend : stkStorage.toNat + 8 ≤ 2 ^ 32) :
    ∃ as, Prefill (stackLimit stkStorage) (stackTop stkStorage stkSize - 0x40 - 4) as ∧
      as.length < 2 ^ 30 := by
  have hlimit := toNat_stackLimit hne hend
  have hdvd : (stackTop stkStorage stkSize).toNat % 4 = 0 := by
    rw [stackTop, BitVec.toNat_mul]
    change _ * 8 % _ % 4 = 0
    omega
  exact exists_prefill (by omega) (by bv_omega) (by bv_omega)

/-- The stores of the set-up: the words pushed, the pointer in the control block, and the pattern
at the addresses `as` to which the loop writes. -/
def startStores (tcb handler stkStorage stkSize : BitVec 32) (as : List (BitVec 32)) :
    List (BitVec 32 × BitVec 32) :=
  pushes (stackTop stkStorage stkSize) (initialWords handler) ++
    (tcb, stackTop stkStorage stkSize - 0x40) :: as.map fun a => (a, 0xFACEB00C)

theorem osThreadStartStack_eq {as : List (BitVec 32)} (tcb handler : BitVec 32)
    (h : Prefill (stackLimit stkStorage) (stackTop stkStorage stkSize - 0x40 - 4) as)
    (hlen : as.length < 2 ^ 30) (m : ByteMemory) :
    osThreadStartStack tcb handler stkStorage stkSize m =
      .ok (storeAll m (startStores tcb handler stkStorage stkSize as)) := by
  have hpush : (initialWords handler).foldl pushWord (m, stackTop stkStorage stkSize) =
      (storeAll m (pushes (stackTop stkStorage stkSize) (initialWords handler)),
        stackTop stkStorage stkSize - 0x40) :=
    foldl_pushWord_eq_storeAll _ m _
  have hfill := h.eq_storeAll hlen
    (store32 (storeAll m (pushes (stackTop stkStorage stkSize) (initialWords handler))) tcb
      (stackTop stkStorage stkSize - 0x40))
  rw [stackLimit] at hfill
  rw [osThreadStartStack, hpush, startStores, storeAll_append, storeAll_cons]
  exact hfill

/-- The words set up are the registers that the thread starts with. -/
theorem unstack_of_initialWords {m : ByteMemory} {p : BitVec 32}
    (hp : p = stackTop stkStorage stkSize - 0x40)
    (h : Words m p (initialWords handler).reverse) :
    unstack m p false = startContext handler stkStorage stkSize := by
  have hpsr : word m p 15 = 1#32 <<< 24 := h.eq_of_getElem? rfl
  have hpos : ∀ i, ([4, 5, 6, 7, 8, 9, 10, 11, 0, 1, 2, 3, 12] : List (BitVec 32))[savePos i]? =
      some (BitVec.ofNat 32 i) := by decide
  refine Context.ext (unstack_r h (fun i => ?_) _) ?_ ?_ ?_ ?_
  · exact (List.getElem?_append_left (List.getElem?_eq_some_iff.mp (hpos i)).1).trans (hpos i)
  · have hsum : p + 0x20 + frameSize false = stackTop stkStorage stkSize := by
      rw [hp, frameSize]
      simp only [Bool.false_eq_true, if_false]
      bv_omega
    rw [unstack, hpsr, hsum]
    exact BitVec.or_zero
  · exact h.eq_of_getElem? rfl
  · have hpc : word m p 14 = handler := h.eq_of_getElem? rfl
    rw [unstack, hpc]
    rfl
  · rw [unstack, hpsr]
    rfl

section Stores

variable {as : List (BitVec 32)} {a b : BitVec 32} {m : ByteMemory}
  (hroom : stkStorage.toNat + 0x40 ≤ (stackTop stkStorage stkSize).toNat)

include hroom

/-- The words pushed end at the end of the stack. -/
theorem mem_pushes_initialWords
    (ha : a ∈ (pushes (stackTop stkStorage stkSize) (initialWords handler)).map Prod.fst) :
    (stackTop stkStorage stkSize).toNat ≤ a.toNat + 0x40 ∧
      a.toNat + 4 ≤ (stackTop stkStorage stkSize).toNat := by
  obtain ⟨i, hi, rfl⟩ := mem_map_fst_pushes.mp ha
  change i < 16 at hi
  bv_omega

variable (hne : 0 < stkStorage.toNat) (hend : stkStorage.toNat + stkSize.toNat < 2 ^ 32)
  (has : Prefill (stackLimit stkStorage) (stackTop stkStorage stkSize - 0x40 - 4) as)

include hne hend has

/-- The loop writes to the aligned words between the limit and the words pushed. -/
theorem mem_prefill_iff : a ∈ as ↔ a.toNat % 4 = 0 ∧ (stackLimit stkStorage).toNat ≤ a.toNat ∧
    a.toNat + 0x44 ≤ (stackTop stkStorage stkSize).toNat := by
  have htop := toNat_stackTop hend
  have hlimit := toNat_stackLimit hne (by omega)
  have hmem := has.mem_iff (a := a) (by omega) (by bv_omega)
  rw [hmem]
  bv_omega

/-- The loop leaves the bytes below the limit and from the words pushed on alone. -/
theorem storeAll_prefill_of_notMem (v : BitVec 32)
    (hb : b.toNat < (stackLimit stkStorage).toNat ∨
      (stackTop stkStorage stkSize).toNat ≤ b.toNat + 0x40) :
    storeAll m (as.map fun a => (a, v)) b = m b := by
  refine storeAll_of_notMem fun w hw => ?_
  obtain ⟨a, ha, rfl⟩ := List.mem_map.mp hw
  have := (mem_prefill_iff hroom hne hend has).mp ha
  bv_omega

/-- The set-up writes to the pointer of the control block and to words of the storage. -/
theorem mem_startStores {w : BitVec 32 × BitVec 32}
    (hw : w ∈ startStores tcb handler stkStorage stkSize as) :
    w.1 = tcb ∨ (w.1 - stkStorage).toNat + 4 ≤ stkSize.toNat := by
  have hlimit := toNat_stackLimit hne (by omega)
  have htop := toNat_stackTop hend
  rcases List.mem_append.mp hw with hw | hw
  · have := mem_pushes_initialWords hroom (List.mem_map_of_mem hw)
    right
    bv_omega
  · rcases List.mem_cons.mp hw with rfl | hw
    · exact Or.inl rfl
    · obtain ⟨a, ha, rfl⟩ := List.mem_map.mp hw
      have := (mem_prefill_iff hroom hne hend has).mp ha
      right
      bv_omega

/-- The loop fills every word that it can. -/
theorem load32_startStores_of_lt (ha : a.toNat % 4 = 0)
    (hlow : (stackLimit stkStorage).toNat ≤ a.toNat)
    (hhigh : a.toNat + 0x44 ≤ (stackTop stkStorage stkSize).toNat) :
    load32 (storeAll m (startStores tcb handler stkStorage stkSize as)) a = 0xFACEB00C := by
  rw [startStores, storeAll_append, storeAll_cons]
  refine load32_storeAll_const (Or.inr ?_) fun b hb => ?_
  · exact (mem_prefill_iff hroom hne hend has).mpr ⟨ha, hlow, hhigh⟩
  · have hb4 := ((mem_prefill_iff hroom hne hend has).mp hb).1
    rw [← BitVec.toNat_inj, Apart]
    bv_omega

/-- The set-up changes no byte outside the rounded storage and the pointer of the control block. -/
theorem storeAll_startStores_of_notMem (htcb : 4 ≤ (b - tcb).toNat)
    (hb : b.toNat < (stackLimit stkStorage).toNat ∨
      (stackTop stkStorage stkSize).toNat ≤ b.toNat) :
    storeAll m (startStores tcb handler stkStorage stkSize as) b = m b := by
  have hlimit := toNat_stackLimit hne (by omega)
  have htop := toNat_stackTop hend
  rw [startStores, storeAll_append, storeAll_cons,
    storeAll_prefill_of_notMem hroom hne hend has _ (by omega), store32_of_notMem htcb]
  refine storeAll_of_notMem fun w hw => ?_
  have := mem_pushes_initialWords hroom (List.mem_map_of_mem hw)
  bv_omega

variable (htcb : BlocksApart stkStorage stkSize.toNat tcb 4)

include htcb

/-- The control block points to the words pushed. -/
theorem load32_tcb_startStores :
    load32 (storeAll m (startStores tcb handler stkStorage stkSize as)) tcb =
      stackTop stkStorage stkSize - 0x40 := by
  have hlimit := toNat_stackLimit hne (by omega)
  have htop := toNat_stackTop hend
  rw [startStores, storeAll_append, storeAll_cons]
  generalize storeAll m _ = m₁
  have hsame : SameOn tcb 4 (store32 m₁ tcb (stackTop stkStorage stkSize - 0x40))
      (storeAll (store32 m₁ tcb (stackTop stkStorage stkSize - 0x40))
        (as.map fun a => (a, 0xFACEB00C))) := fun b hb => by
    refine storeAll_prefill_of_notMem hroom hne hend has _ ?_
    have := htcb.le_of_lt hb
    bv_omega
  exact hsame.load32_eq.trans (load32_store32_self _)

theorem words_startStores :
    Words (storeAll m (startStores tcb handler stkStorage stkSize as))
      (stackTop stkStorage stkSize - 0x40) (initialWords handler).reverse := by
  have htop := toNat_stackTop hend
  have hpush : storeAll m (pushes (stackTop stkStorage stkSize) (initialWords handler)) =
      storeWords m (stackTop stkStorage stkSize - 0x40) (initialWords handler).reverse :=
    congrArg Prod.fst ((foldl_pushWord_eq_storeAll (initialWords handler) m _).symm.trans
      (foldl_pushWord (initialWords handler) m _))
  have hinside : BlocksApart (stackTop stkStorage stkSize - 0x40) 0x40 tcb 4 :=
    htcb.sub (by omega) (by bv_omega)
  rw [startStores, storeAll_append, storeAll_cons, hpush]
  have hwords : Words (storeWords m (stackTop stkStorage stkSize - 0x40)
      (initialWords handler).reverse) (stackTop stkStorage stkSize - 0x40)
      (initialWords handler).reverse := words_storeWords (by change 4 * 16 ≤ 2 ^ 32; omega)
  have hsame := hwords.of_sameOn (sameOn_store32 hinside.symm (stackTop stkStorage stkSize - 0x40))
  refine hsame.of_sameOn fun b hb => storeAll_prefill_of_notMem hroom hne hend has _ (Or.inr ?_)
  change (b - (stackTop stkStorage stkSize - 0x40)).toNat < 64 at hb
  bv_omega

end Stores

/-- The set-up ends. The control block points to the words that have been pushed, and no byte
outside the storage and that pointer has changed. -/
theorem exists_osThreadStartStack (handler : BitVec 32) (hne : 0 < stkStorage.toNat)
    (hend : stkStorage.toNat + stkSize.toNat < 2 ^ 32)
    (hroom : stkStorage.toNat + 0x40 ≤ (stackTop stkStorage stkSize).toNat)
    (htcb : BlocksApart stkStorage stkSize.toNat tcb 4) (m : ByteMemory) :
    ∃ m', osThreadStartStack tcb handler stkStorage stkSize m = .ok m' ∧
      load32 m' tcb = stackTop stkStorage stkSize - 0x40 ∧
      Words m' (stackTop stkStorage stkSize - 0x40) (initialWords handler).reverse ∧
      ∀ b n, BlocksApart stkStorage stkSize.toNat b n → BlocksApart tcb 4 b n →
        SameOn b n m m' := by
  have htop := toNat_stackTop hend
  have hlimit := toNat_stackLimit hne (by omega)
  obtain ⟨as, has, hlen⟩ := exists_prefill_start stkStorage stkSize hne (by omega)
  refine ⟨_, osThreadStartStack_eq tcb handler has hlen m,
    load32_tcb_startStores hroom hne hend has htcb, words_startStores hroom hne hend has htcb,
    fun b n hb hb' x hx => ?_⟩
  refine storeAll_startStores_of_notMem hroom hne hend has (hb'.le_of_lt hx) ?_
  have := hb.le_of_lt hx
  bv_omega

end ThreadStart

end LiteRTOS
