import LiteRTOS.Library.Registers

/-!
# Bringing up the clock

`SystemInit` sets out to switch off the external oscillator, its bypass, the clock security system
and the PLL before `SetSysClock` configures the PLL and switches to it. The mask with which it
clears their four bits in RCC_CR joins the complements of the bits by `|`, and so has all bits
set: the store changes nothing. As long as PLLON is set the processor ignores writes to RCC_PLLCFGR,
so that after a warm start with the PLL on both configurations of the PLL are lost.

The ready flags, the calibration value and the switch status belong to the hardware, which may
change them between any two accesses. A failure of the external oscillator is not modelled.

## Main definitions

* `ClockReg`, `clockRegs`: the registers, the bits of the hardware, and the rule for RCC_PLLCFGR.
* `systemInit`, `setSysClock`: the functions of `Mcu.c`.
* `ClockBroughtUp`: what the two functions set out to do.

## Main results

* `clockBroughtUp_iff`: they do so exactly if the four bits are clear to begin with.
* `rccPllcfgr_of_pllOn`: RCC_PLLCFGR keeps its value when the PLL is on to begin with.
-/

namespace LiteRTOS

open Registers

/-! ### The registers and the functions -/

/-- The registers that `SystemInit` and `SetSysClock` access. -/
inductive ClockReg
  | scbCpacr
  | rccCr
  | rccPllcfgr
  | rccCfgr
  | rccCir
  | rccApb1enr
  | flashAcr
  deriving DecidableEq, Repr

/-- The hardware sets HSIRDY, HSICAL, HSERDY, PLLRDY, PLLI2SRDY and PLLSAIRDY in RCC_CR, SWS in
RCC_CFGR and the flags in RCC_CIR. RCC_PLLCFGR ignores writes while PLLON is set. -/
def clockRegs : Registers ClockReg 32 where
  hardware
    | .rccCr => 0x2A02FF02
    | .rccCfgr => 0x0000000C
    | .rccCir => 0x000000FF
    | _ => 0
  lock
    | .rccPllcfgr => some (.rccCr, 24)
    | _ => none
  lock_spec x y i h := by
    cases x <;> simp_all
    obtain ⟨rfl, rfl⟩ := h
    exact ⟨rfl, rfl⟩

/-- `SystemInit`. -/
def systemInit : List (Access ClockReg 32) :=
  [.or .scbCpacr (3#32 <<< 20 ||| 3#32 <<< 22),
    .or .rccCr (1#32 <<< 0),
    -- the mask of the statement that resets HSEON, CSSON, HSEBYP and PLLON
    .and .rccCr
      ((~~~(1#32 <<< 16) ||| ~~~(1#32 <<< 18)) ||| ~~~(1#32 <<< 19) ||| ~~~(1#32 <<< 24)),
    .store .rccCfgr 0x00000000,
    .store .rccPllcfgr 0x24003010,
    .store .rccCir 0x00000000,
    .store .flashAcr (1#32 <<< 9 ||| 1#32 <<< 10 ||| 5#32 <<< 0)]

/-- `SetSysClock`. -/
def setSysClock : List (Access ClockReg 32) :=
  [.or .rccCr (1#32 <<< 16),
    .await .rccCr fun v => v &&& 1#32 <<< 17 ≠ 0,
    .or .rccApb1enr (1#32 <<< 28),
    .or .rccCfgr (5#32 <<< 10 ||| 1#32 <<< 15),
    .store .rccPllcfgr
      (8#32 <<< 0 ||| 360#32 <<< 6 ||| 0#32 <<< 16 ||| 1#32 <<< 22 ||| 7#32 <<< 24),
    .or .rccCr (1#32 <<< 24),
    .await .rccCr fun v => v &&& 1#32 <<< 25 ≠ 0,
    .and .rccCfgr (~~~(3#32 <<< 0)),
    .or .rccCfgr (2#32 <<< 0),
    .await .rccCfgr fun v => v &&& 0x0C#32 <<< 0 = 8#32 <<< 0]

/-! ### What the functions set out to do -/

/-- HSEON, HSEBYP, CSSON and PLLON in RCC_CR. -/
def resetBits : List ℕ := [16, 18, 19, 24]

/-- The PLL divides by 8, multiplies by 360 and divides by 2, and by 7 for its second output. It is
selected as system clock, of which PCLK1 is a quarter and PCLK2 a half. -/
structure PllConfigured (r : ClockReg → BitVec 32) : Prop where
  pllM : (r .rccPllcfgr).extractLsb' 0 6 = 8
  pllN : (r .rccPllcfgr).extractLsb' 6 9 = 360
  /-- The value 0 stands for the division by 2. -/
  pllP : (r .rccPllcfgr).extractLsb' 16 2 = 0
  pllQ : (r .rccPllcfgr).extractLsb' 24 4 = 7
  sw : (r .rccCfgr).extractLsb' 0 2 = 2
  ppre1 : (r .rccCfgr).extractLsb' 10 3 = 0b101
  ppre2 : (r .rccCfgr).extractLsb' 13 3 = 0b100

/-- From the registers `r`, `SystemInit` sets HSION, clears the four bits and leaves the other bits
of the software in RCC_CR as they were, all writes to RCC_PLLCFGR are made with PLLON clear, and
whenever `SetSysClock` returns the PLL is configured. -/
structure ClockBroughtUp (r : ClockReg → BitVec 32) : Prop where
  hsion : ∀ r', Run clockRegs.Step r systemInit r' → (r' .rccCr).getLsbD 0 = true
  cleared : ∀ r', Run clockRegs.Step r systemInit r' →
    ∀ i ∈ resetBits, (r' .rccCr).getLsbD i = false
  kept : ∀ r', Run clockRegs.Step r systemInit r' → ∀ i, i ≠ 0 → i ∉ resetBits →
    (clockRegs.hardware .rccCr).getLsbD i = false →
    (r' .rccCr).getLsbD i = (r .rccCr).getLsbD i
  pllOff : Run.EveryStep clockRegs.Step
    (fun r a => a.target = some .rccPllcfgr → (r .rccCr).getLsbD 24 = false) r
    (systemInit ++ setSysClock)
  configured : ∀ r', Run clockRegs.Step r (systemInit ++ setSysClock) r' → PllConfigured r'

variable {r r' : ClockReg → BitVec 32} {i : ℕ}

/-- What `SystemInit` makes of the bits of the software in RCC_CR: its mask has all bits set. -/
theorem rccCr_systemInit (h : Run clockRegs.Step r systemInit r')
    (hi : (clockRegs.hardware .rccCr).getLsbD i = false) :
    (r' .rccCr).getLsbD i = ((r .rccCr).getLsbD i || decide (i = 0)) := by
  have hfold : ∀ i < 32, ∀ b : Bool,
      systemInit.foldl (Access.bit .rccCr i) b = (b || decide (i = 0)) := by decide
  rw [getLsbD_of_run h rfl hi]
  by_cases hlt : i < 32
  · exact hfold i hlt _
  · have hne : i ≠ 0 := by omega
    simp [systemInit, Access.bit, BitVec.getLsbD_of_ge, Nat.not_lt.mp hlt, hne]

/-- The first two writes to RCC_CR leave PLLON as it is, so that all writes to RCC_PLLCFGR find it
at its value at the start. -/
theorem everyStep_pllOn (r : ClockReg → BitVec 32) :
    Run.EveryStep clockRegs.Step
      (fun r' a => a.target = some .rccPllcfgr →
        (r' .rccCr).getLsbD 24 = (r .rccCr).getLsbD 24) r (systemInit ++ setSysClock) := by
  have hwrites : ∀ b : Bool,
      WritesWhile .rccPllcfgr .rccCr 24 b b (systemInit ++ setSysClock) := by decide
  exact everyStep_of_writesWhile (B := clockRegs) rfl (hwrites _)

/-- With PLLON set at the start RCC_PLLCFGR keeps its value. -/
theorem rccPllcfgr_of_pllOn (hpll : (r .rccCr).getLsbD 24 = true)
    (h : Run clockRegs.Step r (systemInit ++ setSysClock) r') :
    r' .rccPllcfgr = r .rccPllcfgr := by
  have hlocked := everyStep_pllOn r
  rw [hpll] at hlocked
  exact BitVec.eq_of_getLsbD_eq fun i _ => getLsbD_of_run_locked h (by simp [clockRegs]) hlocked

/-- With PLLON clear at the start both writes to RCC_PLLCFGR take place. -/
theorem rccPllcfgr_of_pllOff (hpll : (r .rccCr).getLsbD 24 = false)
    (h : Run clockRegs.Step r (systemInit ++ setSysClock) r') : r' .rccPllcfgr = 0x07405A08 := by
  have hunlocked := everyStep_pllOn r
  rw [hpll] at hunlocked
  have hfold : ∀ i < 32, ∀ b : Bool,
      (systemInit ++ setSysClock).foldl (Access.bit .rccPllcfgr i) b =
        (0x07405A08#32).getLsbD i := by decide
  refine BitVec.eq_of_getLsbD_eq fun i hi => ?_
  rw [getLsbD_of_run_unlocked h (by simp [clockRegs]) hunlocked]
  exact hfold i hi _

/-- The bits of the software in RCC_CFGR after the bring-up. -/
theorem rccCfgr_eq (h : Run clockRegs.Step r (systemInit ++ setSysClock) r') {start len : ℕ}
    (hbits : ∀ j < len, start + j < 32 ∧
      (clockRegs.hardware .rccCfgr).getLsbD (start + j) = false) :
    (r' .rccCfgr).extractLsb' start len = (0x00009402#32).extractLsb' start len := by
  have hfold : ∀ i < 32, ∀ b : Bool, (clockRegs.hardware .rccCfgr).getLsbD i = false →
      (systemInit ++ setSysClock).foldl (Access.bit .rccCfgr i) b =
        (0x00009402#32).getLsbD i := by decide
  refine BitVec.eq_of_getLsbD_eq fun j hj => ?_
  obtain ⟨hlt, hhw⟩ := hbits j hj
  rw [BitVec.getLsbD_extractLsb', BitVec.getLsbD_extractLsb', getLsbD_of_run h rfl hhw,
    hfold _ hlt _ hhw]

theorem exists_run_systemInit (r : ClockReg → BitVec 32) :
    ∃ r', Run clockRegs.Step r systemInit r' :=
  ⟨_, run_of_access? (fun r => .refl r) rfl⟩

/-- **The bring-up is as intended exactly if the four bits are clear at the start.** From any values
of the registers, `SystemInit` sets HSION, clears HSEON, HSEBYP, CSSON and PLLON and leaves the
rest of RCC_CR, all writes to RCC_PLLCFGR are made with PLLON clear, and the PLL is configured when
`SetSysClock` returns: this is so if and only if the four bits are clear when `SystemInit` is
entered. -/
theorem clockBroughtUp_iff (r : ClockReg → BitVec 32) :
    ClockBroughtUp r ↔ ∀ i ∈ resetBits, (r .rccCr).getLsbD i = false := by
  have hreset : ∀ i ∈ resetBits, (clockRegs.hardware .rccCr).getLsbD i = false ∧ i ≠ 0 := by decide
  constructor
  · intro h i hi
    obtain ⟨r', hr'⟩ := exists_run_systemInit r
    have hclear := h.cleared r' hr' i hi
    rw [rccCr_systemInit hr' (hreset i hi).1, Bool.or_eq_false_iff] at hclear
    exact hclear.1
  · intro h
    have hpll : (r .rccCr).getLsbD 24 = false := h 24 (by decide)
    refine ⟨fun r' hr' => ?_, fun r' hr' i hi => ?_, fun r' hr' i hne _ hhw => ?_, ?_,
      fun r' hr' => ?_⟩
    · rw [rccCr_systemInit hr' rfl]
      exact Bool.or_true _
    · rw [rccCr_systemInit hr' (hreset i hi).1, h i hi, Bool.false_or]
      exact decide_eq_false (hreset i hi).2
    · rw [rccCr_systemInit hr' hhw, decide_eq_false hne, Bool.or_false]
    · have hoff := everyStep_pllOn r
      rwa [hpll] at hoff
    · have hpllcfgr := rccPllcfgr_of_pllOff hpll hr'
      exact
        { pllM := by rw [hpllcfgr]; decide
          pllN := by rw [hpllcfgr]; decide
          pllP := by rw [hpllcfgr]; decide
          pllQ := by rw [hpllcfgr]; decide
          sw := rccCfgr_eq hr' (by decide)
          ppre1 := rccCfgr_eq hr' (by decide)
          ppre2 := rccCfgr_eq hr' (by decide) }

/-! ### Two starts -/

/-- The hardware reports at once what is switched on and which clock is selected. -/
def promptHardware (r : ClockReg → BitVec 32) : ClockReg → BitVec 32
  | .rccCr => r .rccCr &&& ~~~0x02020002#32 ||| (r .rccCr <<< 1) &&& 0x02020002#32
  | .rccCfgr => r .rccCfgr &&& ~~~0x0000000C#32 ||| (r .rccCfgr <<< 2) &&& 0x0000000C#32
  | x => r x

theorem drift_promptHardware (r : ClockReg → BitVec 32) : clockRegs.Drift r (promptHardware r) := by
  have hset (u v m : BitVec 32) {i : ℕ} (hm : m.getLsbD i = false) :
      (u &&& ~~~m ||| v &&& m).getLsbD i = u.getLsbD i := by
    rw [BitVec.getLsbD_or, BitVec.getLsbD_and, BitVec.getLsbD_and, BitVec.getLsbD_not, hm]
    by_cases hlt : i < 32
    · simp [hlt]
    · simp [BitVec.getLsbD_of_ge u i (by omega)]
  have hmask : ∀ i < 32, (0x2A02FF02#32).getLsbD i = false → (0x02020002#32).getLsbD i = false := by
    decide
  intro x i hi
  cases x with
  | rccCr =>
    refine hset _ _ _ ?_
    by_cases hlt : i < 32
    · exact hmask i hlt hi
    · exact BitVec.getLsbD_of_ge _ i (by omega)
  | rccCfgr => exact hset _ _ _ hi
  | scbCpacr | rccPllcfgr | rccCir | rccApb1enr | flashAcr => rfl

/-- The registers after a reset. -/
def coldStart : ClockReg → BitVec 32
  | .rccCr => 0x00000083
  | .rccPllcfgr => 0x24003010
  | _ => 0

/-- The registers when the PLL runs on the external oscillator and is the system clock. -/
def warmStart : ClockReg → BitVec 32
  | .rccCr => 0x03030083
  | .rccPllcfgr => 0x24403010
  | .rccCfgr => 0x0000000A
  | _ => 0

/-- After a reset the bring-up comes to its end with the PLL configured. -/
theorem pllConfigured_coldStart : ∃ r',
    Run clockRegs.Step coldStart (systemInit ++ setSysClock) r' ∧ PllConfigured r' := by
  have hend : (Run.eval (clockRegs.access? promptHardware) coldStart
      (systemInit ++ setSysClock)).isSome = true := by decide
  obtain ⟨r', hr'⟩ := Option.isSome_iff_exists.mp hend
  have hrun := run_of_access? drift_promptHardware hr'
  exact ⟨r', hrun, ((clockBroughtUp_iff coldStart).mpr (by decide)).configured r' hrun⟩

/-- After a warm start `SystemInit` leaves PLLON set, and the bring-up comes to its end with the old
configuration of the PLL. -/
theorem not_clockBroughtUp_warmStart : ¬ClockBroughtUp warmStart ∧
    (∃ r', Run clockRegs.Step warmStart systemInit r' ∧ (r' .rccCr).getLsbD 24 = true) ∧
    ∃ r', Run clockRegs.Step warmStart (systemInit ++ setSysClock) r' ∧
      r' .rccPllcfgr = 0x24403010 ∧ ¬PllConfigured r' := by
  have hpll : (warmStart .rccCr).getLsbD 24 = true := by decide
  refine ⟨fun h => ?_, ?_, ?_⟩
  · obtain ⟨r', hr'⟩ := exists_run_systemInit warmStart
    have hset : (r' .rccCr).getLsbD 24 = true := by
      rw [rccCr_systemInit hr' rfl, hpll, Bool.true_or]
    exact absurd ((h.cleared r' hr' 24 (by decide)).symm.trans hset) Bool.false_ne_true
  · obtain ⟨r', hr'⟩ := exists_run_systemInit warmStart
    exact ⟨r', hr', by rw [rccCr_systemInit hr' rfl, hpll, Bool.true_or]⟩
  · have hend : (Run.eval (clockRegs.access? promptHardware) warmStart
        (systemInit ++ setSysClock)).isSome = true := by decide
    obtain ⟨r', hr'⟩ := Option.isSome_iff_exists.mp hend
    have hrun := run_of_access? drift_promptHardware hr'
    have hold : r' .rccPllcfgr = 0x24403010 := rccPllcfgr_of_pllOn hpll hrun
    refine ⟨r', hrun, hold, fun h => ?_⟩
    have hm := h.pllM
    rw [hold] at hm
    exact absurd hm (by decide)

end LiteRTOS
