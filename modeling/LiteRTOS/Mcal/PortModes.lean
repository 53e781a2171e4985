import LiteRTOS.Library.Registers
import LiteRTOS.Mcal.Gpio

/-!
# The modes of the pins

`GPIO_Init` switches on the clocks of the ports A and C and makes outputs of the pins that the
program drives. A port ignores writes while its clock is off. The mode of a pin is a field of two
bits, which a read-modify-write changes one bit, or one field, at a time.

## Main definitions

* `PortReg`, `gpioInit`: the registers and the accesses of `GPIO_Init`.
* `PortReg.mode`: the mode of a pin.

## Main results

* `gpioInit_clocked`: every write to a port finds its clock switched on.
* `mode_gpioInit`: the modes of all pins after `GPIO_Init`.
-/

namespace LiteRTOS

open Registers

/-- The registers that `GPIO_Init` accesses. -/
inductive PortReg
  | rccAhb1enr
  | gpioaModer
  | gpiocModer
  deriving DecidableEq, Repr

/-- The hardware sets none of their bits. -/
def portRegs : Registers PortReg 32 where
  hardware _ := 0
  lock _ := none
  lock_spec _ _ _ h := by cases h

/-- `USER_LED`. -/
def userLed : ℕ := 5

/-- `GPIO_Init`. -/
def gpioInit : List (Access PortReg 32) :=
  [.or .rccAhb1enr (1#32 <<< 0 ||| 1#32 <<< 2),
    .or .gpioaModer (1#32 <<< (userLed * 2)),
    .and .gpioaModer (~~~(1#32 <<< (userLed * 2 + 1))),
    .and .gpiocModer (~~~(3#32 <<< (3 * 2))),
    .or .gpiocModer (1#32 <<< (3 * 2)),
    .and .gpiocModer (~~~(3#32 <<< (2 * 2))),
    .or .gpiocModer (1#32 <<< (2 * 2)),
    .and .gpiocModer (~~~(3#32 <<< (10 * 2))),
    .or .gpiocModer (1#32 <<< (10 * 2))]

namespace PortReg

/-- The bit of `RCC_AHB1ENR` that switches on the clock of a port register. -/
def clockBit : PortReg → Option ℕ
  | rccAhb1enr => none
  | gpioaModer => some 0
  | gpiocModer => some 2

/-- The pins of a port that the program drives. -/
def outputs : PortReg → List ℕ
  | rccAhb1enr => []
  | gpioaModer => [userLed]
  | gpiocModer => [Pin.pc2.bit, Pin.pc3.bit, Pin.pc10.bit]

/-- The mode of the pin `p`, where 1 stands for an output. -/
def mode (v : BitVec 32) (p : ℕ) : BitVec 2 := v.extractLsb' (2 * p) 2

end PortReg

open PortReg

variable {r r' : PortReg → BitVec 32} {x : PortReg} {i : ℕ}

/-- **No write of `GPIO_Init` is lost.** Every write to a mode register finds the clock of its port
switched on, whatever the registers contain at the start, and the clock stays on. -/
theorem gpioInit_clocked (hx : x.clockBit = some i) (r : PortReg → BitVec 32) :
    Run.EveryStep portRegs.Step (fun r a => a.target = some x → (r .rccAhb1enr).getLsbD i = true) r
      gpioInit ∧
    ∀ r', Run portRegs.Step r gpioInit r' → (r' .rccAhb1enr).getLsbD i = true := by
  have hwrites : ∀ b, WritesWhile x .rccAhb1enr i true b gpioInit ∧
      gpioInit.foldl (Access.bit .rccAhb1enr i) b = true := by
    cases x <;> cases hx <;> decide
  refine ⟨everyStep_getLsbD rfl (by simp [portRegs]) (hwrites _).1, fun r' hr => ?_⟩
  rw [getLsbD_of_run hr rfl (by simp [portRegs])]
  exact (hwrites _).2

/-- **The pins that the program drives become outputs.** After `GPIO_Init` they are, whatever their
modes were, and all other pins of the two ports are in the mode in which they were. -/
theorem mode_gpioInit (hx : x.clockBit = some i) (h : Run portRegs.Step r gpioInit r') (p : ℕ) :
    mode (r' x) p = if p ∈ x.outputs then 1 else mode (r x) p := by
  have hfold : ∀ j < 32, ∀ b : Bool, gpioInit.foldl (Access.bit x j) b =
      if j / 2 ∈ x.outputs then decide (j % 2 = 0) else b := by
    cases x <;> cases hx <;> decide
  have houtputs : ∀ q ∈ x.outputs, q < 16 := by cases x <;> decide
  have hone : ∀ j < 2, decide (j = 0) = (1#2).getLsbD j := by decide
  refine BitVec.eq_of_getLsbD_eq fun j hj => ?_
  by_cases hp : p < 16
  · have hdiv : (2 * p + j) / 2 = p := by omega
    have hmod : (2 * p + j) % 2 = j := by omega
    rw [mode, BitVec.getLsbD_extractLsb', decide_eq_true hj, Bool.true_and,
      getLsbD_of_run h rfl (by simp [portRegs]), hfold _ (by omega), hdiv, hmod]
    split_ifs
    · exact hone j hj
    · rw [mode, BitVec.getLsbD_extractLsb', decide_eq_true hj, Bool.true_and]
  · -- a register has no bits for this pin
    rw [if_neg fun hmem => hp (houtputs p hmem), mode, mode, BitVec.getLsbD_extractLsb',
      BitVec.getLsbD_extractLsb', BitVec.getLsbD_of_ge _ _ (by omega),
      BitVec.getLsbD_of_ge _ _ (by omega)]

end LiteRTOS
