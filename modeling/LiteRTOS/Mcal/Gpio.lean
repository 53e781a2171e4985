import LiteRTOS.Library.BitMask

/-!
# The pins of GPIO port C

`Gpio.c` drives the pins PC2, PC3 and PC10 by a read-modify-write of the output register
`GPIOC_ODR` between an acquisition and a release of the flag `port_c_lock`. The acquisition sets
the flag and throws its old value away, so that it never waits.

## Main definitions

* `Pin`, `PinCall`: the pins, and the six functions `PC2_On`, …, `PC10_Off` as a pin and a level.
* `PortC`: the flag and the output register.
* `PinCall.exec`: one call, run to its end.

## Main results

* `PinCall.getLsbD_update`: a call drives its own pin.
-/

namespace LiteRTOS

/-- The pins of port C that the program drives. -/
inductive Pin
  | pc2
  | pc3
  | pc10
  deriving DecidableEq, Repr

/-- The bit of a pin in `GPIOC_ODR`. -/
def Pin.bit : Pin → ℕ
  | .pc2 => 2
  | .pc3 => 3
  | .pc10 => 10

theorem Pin.bit_lt (p : Pin) : p.bit < 32 := by cases p <;> decide

theorem Pin.bit_injective : Function.Injective Pin.bit := by
  intro p q h
  cases p <;> cases q <;> first | rfl | exact absurd h (by decide)

/-- `port_c_lock` and `GPIOC_ODR`. -/
structure PortC where
  /-- `port_c_lock`. -/
  lock : Bool := false
  /-- `GPIOC_ODR`. -/
  odr : BitVec 32

/-- `atomic_flag_test_and_set` on `port_c_lock`: the old value of the flag, which is set. -/
def PortC.testAndSet (p : PortC) : Bool × PortC := (p.lock, { p with lock := true })

/-- `AcquirePortResource`: the value of the test-and-set is not looked at. -/
def PortC.acquirePortResource (p : PortC) : PortC := p.testAndSet.2

/-- `ReleasePortResource`. -/
def PortC.releasePortResource (p : PortC) : PortC := { p with lock := false }

/-- One of the functions `PC2_On`, …, `PC10_Off`: the pin and the level it is driven to. -/
structure PinCall where
  pin : Pin
  level : Bool
  deriving DecidableEq, Repr

namespace PinCall

/-- What a call stores when it has read `v`. -/
def update (c : PinCall) (v : BitVec 32) : BitVec 32 :=
  if c.level then v ||| 1#32 <<< c.pin.bit else v &&& ~~~(1#32 <<< c.pin.bit)

/-- A call from its first step to its last. -/
def exec (c : PinCall) (p : PortC) : PortC :=
  let p := p.acquirePortResource
  let p := { p with odr := c.update p.odr }
  p.releasePortResource

/-- A call writes the level of its pin and no other bit. -/
theorem getLsbD_update (c : PinCall) (v : BitVec 32) (i : ℕ) :
    (c.update v).getLsbD i = if i = c.pin.bit then c.level else v.getLsbD i := by
  rw [update]
  cases hl : c.level
  · rw [if_neg Bool.false_ne_true, BitMask.getLsbD_erase c.pin.bit_lt]
    by_cases hi : i = c.pin.bit <;> simp [hi]
  · rw [if_pos rfl, BitMask.getLsbD_insert c.pin.bit_lt]
    by_cases hi : i = c.pin.bit <;> simp [hi]

end PinCall

/-! ### The six functions -/

/-- `PC2_On`. -/
def pc2On : PortC → PortC := PinCall.exec ⟨.pc2, true⟩

/-- `PC2_Off`. -/
def pc2Off : PortC → PortC := PinCall.exec ⟨.pc2, false⟩

/-- `PC3_On`. -/
def pc3On : PortC → PortC := PinCall.exec ⟨.pc3, true⟩

/-- `PC3_Off`. -/
def pc3Off : PortC → PortC := PinCall.exec ⟨.pc3, false⟩

/-- `PC10_On`. -/
def pc10On : PortC → PortC := PinCall.exec ⟨.pc10, true⟩

/-- `PC10_Off`. -/
def pc10Off : PortC → PortC := PinCall.exec ⟨.pc10, false⟩

end LiteRTOS
