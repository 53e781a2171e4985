import LiteRTOS.Mcal.Mcu
import Mathlib.Data.List.Basic

/-!
# `NVIC_SetPriority` as a map from exceptions to priorities

The architecture has one priority byte for each exception: the bytes from `0xE000ED18` on for the
system exceptions, and the bytes from `0xE000E400` on for the peripheral interrupts. A sequence of
calls of `NVIC_SetPriority` on system exceptions writes the last priority given for each of them to
its byte and nothing else.

For the peripheral interrupts the function adds their number to `NVIC_IPR_BASE`, which is defined
as the address of ICSR. Such a call writes one of the bytes from ICSR on, and never the byte of the
interrupt.

## Main definitions

* `Configurable`, `architecturalByte`: the exceptions with a priority, and their priority bytes.
* `nvicSetPriorities`: a sequence of calls.
* `LastWriteWins`: the last priority of each exception, and nothing else, has been written.

## Main results

* `lastWriteWins_iff`: this is so exactly for the calls on system exceptions.
-/

namespace LiteRTOS

open ByteMemory

/-! ### The priority bytes of the architecture -/

/-- The numbers of the exceptions whose priority can be set: the system exceptions from the memory
management fault on, and the peripheral interrupts. -/
def Configurable (irqn : BitVec 32) : Prop :=
  irqn.toInt ∈ [-12, -11, -10, -5, -4, -2, -1] ∨ 0 ≤ irqn.toInt ∧ irqn.toInt ≤ 96

instance (irqn : BitVec 32) : Decidable (Configurable irqn) := inferInstanceAs (Decidable (_ ∨ _))

/-- The address of the priority byte of a system exception. -/
def priorityByte (exception : ℕ) : BitVec 32 := 0xE000ED14 + BitVec.ofNat 32 exception

/-- The address of the priority byte that the architecture gives to an exception. -/
def architecturalByte (irqn : BitVec 32) : BitVec 32 :=
  if irqn.toInt < 0 then priorityByte (16 + irqn.toInt).toNat else 0xE000E400 + irqn

/-- The calls of `NVIC_SetPriority`, one after the other. -/
def nvicSetPriorities (calls : List (BitVec 32 × BitVec 32)) (scs : ByteMemory) : ByteMemory :=
  calls.foldl (fun scs c => nvicSetPriority c.1 c.2 scs) scs

/-- Between `scs` and `scs'` the byte of each exception that the calls name has been set to the last
priority given for it, and no other byte has changed. -/
structure LastWriteWins (calls : List (BitVec 32 × BitVec 32)) (scs scs' : ByteMemory) : Prop where
  named : ∀ l₁ irqn priority l₂, calls = l₁ ++ (irqn, priority) :: l₂ → (∀ c ∈ l₂, c.1 ≠ irqn) →
    (scs' (architecturalByte irqn)).toNat = priority.toNat % 16 * 16
  unchanged : ∀ a, (∀ c ∈ calls, architecturalByte c.1 ≠ a) → scs' a = scs a

variable {irqn irqn' priority a : BitVec 32} {calls : List (BitVec 32 × BitVec 32)}
  {scs : ByteMemory}

/-! ### The bytes that the code writes -/

theorem toNat_priorityValue (priority : BitVec 32) :
    (((priority &&& 0xF) <<< 4).setWidth 8).toNat = priority.toNat % 16 * 16 := by
  have hmask : (priority &&& 0xF).toNat = priority.toNat % 16 :=
    (BitVec.toNat_and _ _).trans (Nat.and_two_pow_sub_one_eq_mod priority.toNat 4)
  rw [BitVec.toNat_setWidth, BitVec.toNat_shiftLeft, hmask, Nat.shiftLeft_eq]
  omega

theorem Configurable.toInt_mem (h : Configurable irqn) :
    -12 ≤ irqn.toInt ∧ irqn.toInt ≤ 96 := by
  rcases h with h | h
  · simp only [List.mem_cons, List.not_mem_nil, or_false] at h
    omega
  · omega

/-- On a system exception the code writes the byte of the architecture. -/
theorem nvicPriorityAddr_of_neg (h : Configurable irqn) (hneg : irqn.toInt < 0) :
    nvicPriorityAddr irqn = architecturalByte irqn := by
  have hmem : irqn.toInt ∈ [-12, -11, -10, -5, -4, -2, -1] := by
    refine h.resolve_right ?_
    omega
  have hirqn : irqn = BitVec.ofInt 32 irqn.toInt := (BitVec.ofInt_toInt).symm
  generalize irqn.toInt = i at hmem hirqn
  subst hirqn
  revert i
  decide

/-- All bytes that the code writes are between ICSR and `0xE000ED64`. -/
theorem nvicPriorityAddr_mem (h : Configurable irqn) :
    0xE000ED04 ≤ (nvicPriorityAddr irqn).toNat ∧ (nvicPriorityAddr irqn).toNat ≤ 0xE000ED64 := by
  obtain ⟨hlow, hhigh⟩ := h.toInt_mem
  by_cases hneg : irqn.toInt < 0
  · rw [nvicPriorityAddr_of_neg h hneg, architecturalByte, if_pos hneg, priorityByte]
    generalize irqn.toInt = i at hneg hlow
    have hi : (16 + i).toNat < 16 := by omega
    bv_omega
  · have hslt : irqn.slt 0 = false := by
      simpa [BitVec.slt] using hneg
    have hnat : irqn.toNat ≤ 96 := by
      rw [BitVec.toInt_eq_toNat_cond] at hneg hhigh
      split_ifs at hneg hhigh <;> omega
    rw [nvicPriorityAddr, hslt]
    simp only [Bool.false_eq_true, if_false, nvicIprBase, icsrBase]
    bv_omega

/-- Different system exceptions have different bytes. -/
theorem architecturalByte_injective (h : Configurable irqn) (h' : Configurable irqn')
    (hneg : irqn.toInt < 0) (hneg' : irqn'.toInt < 0)
    (heq : architecturalByte irqn = architecturalByte irqn') : irqn = irqn' := by
  have hlow := h.toInt_mem.1
  have hlow' := h'.toInt_mem.1
  rw [architecturalByte, architecturalByte, if_pos hneg, if_pos hneg', priorityByte,
    priorityByte] at heq
  refine BitVec.eq_of_toInt_eq ?_
  generalize irqn.toInt = i at *
  generalize irqn'.toInt = i' at *
  have hexc : (16 + i).toNat = (16 + i').toNat := by bv_omega
  omega

/-- The bytes of the peripheral interrupts are below those that the code writes. -/
theorem toNat_architecturalByte_lt (h : Configurable irqn) (hpos : 0 ≤ irqn.toInt) :
    (architecturalByte irqn).toNat < 0xE000ED04 := by
  have hhigh := h.toInt_mem.2
  have hnat : irqn.toNat ≤ 96 := by
    rw [BitVec.toInt_eq_toNat_cond] at hpos hhigh
    split_ifs at hpos hhigh <;> omega
  rw [architecturalByte, if_neg (by omega)]
  bv_omega

/-! ### Sequences of calls -/

theorem nvicSetPriorities_append (l₁ l₂ : List (BitVec 32 × BitVec 32)) (scs : ByteMemory) :
    nvicSetPriorities (l₁ ++ l₂) scs = nvicSetPriorities l₂ (nvicSetPriorities l₁ scs) :=
  List.foldl_append

/-- A byte that no call writes keeps its value. -/
theorem nvicSetPriorities_of_notMem (h : ∀ c ∈ calls, a ≠ nvicPriorityAddr c.1)
    (scs : ByteMemory) : nvicSetPriorities calls scs a = scs a := by
  induction calls generalizing scs with
  | nil => rfl
  | cons c calls ih =>
    refine (ih (fun c' hc' => h c' (List.mem_cons_of_mem _ hc')) _).trans ?_
    exact store8_of_ne (h c List.mem_cons_self) _

/-- Among the calls on an exception there is a last one. -/
theorem exists_last_call (h : irqn ∈ calls.map Prod.fst) : ∃ l₁ priority l₂,
    calls = l₁ ++ (irqn, priority) :: l₂ ∧ ∀ c ∈ l₂, c.1 ≠ irqn := by
  induction calls with
  | nil => exact absurd h List.not_mem_nil
  | cons c calls ih =>
    by_cases hlater : irqn ∈ calls.map Prod.fst
    · obtain ⟨l₁, priority, l₂, rfl, hl₂⟩ := ih hlater
      exact ⟨c :: l₁, priority, l₂, rfl, hl₂⟩
    · obtain rfl := (List.mem_cons.mp h).resolve_right hlater
      exact ⟨[], c.2, calls, rfl, fun c' hc' heq => hlater (heq ▸ List.mem_map_of_mem hc')⟩

/-- The calls on system exceptions write the last priority of each. -/
theorem lastWriteWins_of_neg (hcalls : ∀ c ∈ calls, Configurable c.1)
    (hneg : ∀ c ∈ calls, c.1.toInt < 0) (scs : ByteMemory) :
    LastWriteWins calls scs (nvicSetPriorities calls scs) := by
  have haddr (c : BitVec 32 × BitVec 32) (hc : c ∈ calls) :
      nvicPriorityAddr c.1 = architecturalByte c.1 :=
    nvicPriorityAddr_of_neg (hcalls c hc) (hneg c hc)
  constructor
  · intro l₁ irqn priority l₂ hsplit hlast
    have hmem : (irqn, priority) ∈ calls := by simp [hsplit]
    have hlater : ∀ c ∈ l₂, architecturalByte irqn ≠ nvicPriorityAddr c.1 := by
      intro c hc heq
      have hc' : c ∈ calls := by simp [hsplit, hc]
      rw [haddr c hc'] at heq
      exact hlast c hc (architecturalByte_injective (hcalls _ hmem) (hcalls c hc') (hneg _ hmem)
        (hneg c hc') heq).symm
    rw [hsplit, nvicSetPriorities_append]
    change (nvicSetPriorities l₂ (nvicSetPriority irqn priority _) _).toNat = _
    rw [nvicSetPriorities_of_notMem hlater, nvicSetPriority, haddr _ hmem, store8, if_pos rfl,
      toNat_priorityValue]
  · intro a ha
    refine nvicSetPriorities_of_notMem (fun c hc heq => ha c hc ?_) scs
    rw [heq, haddr c hc]

/-- **The last write wins exactly for the system exceptions.** Let the calls name exceptions whose
priority can be set. Whatever the bytes of the System Control Space are at first, the byte of each
exception named holds the last priority given for it and no other byte has changed: this is so if
and only if no call names a peripheral interrupt. -/
theorem lastWriteWins_iff (hcalls : ∀ c ∈ calls, Configurable c.1) :
    (∀ scs, LastWriteWins calls scs (nvicSetPriorities calls scs)) ↔
      ∀ c ∈ calls, c.1.toInt < 0 := by
  refine ⟨fun h c hc => ?_, fun hneg => lastWriteWins_of_neg hcalls hneg⟩
  by_contra hpos
  obtain ⟨l₁, priority, l₂, hsplit, hlast⟩ := exists_last_call (List.mem_map_of_mem hc)
  -- the byte of the interrupt keeps its value, here one that is no priority
  have hkept : nvicSetPriorities calls (fun _ => 1) (architecturalByte c.1) = 1 := by
    refine nvicSetPriorities_of_notMem (fun c' hc' heq => ?_) _
    have hlow := (nvicPriorityAddr_mem (hcalls c' hc')).1
    have hlt := toNat_architecturalByte_lt (hcalls c hc) (by omega)
    rw [heq] at hlt
    omega
  have hval := (h fun _ => 1).named l₁ c.1 priority l₂ hsplit hlast
  rw [hkept] at hval
  change 1 = _ at hval
  omega

/-- SysTick twice and the memory management fault. -/
theorem lastWriteWins_three : LastWriteWins [(-1, 3), (-12, 7), (-1, 5)] (fun _ => 0xFF)
    (nvicSetPriorities [(-1, 3), (-12, 7), (-1, 5)] fun _ => 0xFF) := by
  refine (lastWriteWins_iff ?_).mpr ?_ _
  · simp only [List.forall_mem_cons, List.not_mem_nil, false_imp_iff, implies_true, and_true]
    decide
  · simp only [List.forall_mem_cons, List.not_mem_nil, false_imp_iff, implies_true, and_true]
    decide

/-- The priority 1 for the interrupt 3 is written to the upper byte of ICSR, where it sets the
pending bit of PendSV. -/
theorem nvicSetPriority_pends : pendSVSet (fun _ => 0) = false ∧
    pendSVSet (nvicSetPriorities [(3, 1)] fun _ => 0) = true ∧
    nvicSetPriorities [(3, 1)] (fun _ => 0) 0xE000E403 = 0 ∧
    ¬LastWriteWins [(3, 1)] (fun _ => 0) (nvicSetPriorities [(3, 1)] fun _ => 0) := by
  refine ⟨rfl, by decide, by decide, fun h => ?_⟩
  have hne : ∀ c ∈ [((3 : BitVec 32), (1 : BitVec 32))], architecturalByte c.1 ≠ 0xE000ED07 :=
    List.forall_mem_singleton.mpr (by decide)
  exact absurd (h.unchanged 0xE000ED07 hne) (by decide)

end LiteRTOS
