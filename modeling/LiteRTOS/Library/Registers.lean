import LiteRTOS.Library.Run
import Mathlib.Data.Nat.Notation
import Mathlib.Logic.Function.Basic

/-!
# Registers with bits that the hardware sets

A peripheral has registers some of whose bits the hardware sets at any time and software cannot
write, and it may ignore the writes to a register while a bit of another one is set. A program
accesses such registers by stores, by `|=` and `&=`, which load before they store, and by loops
that wait until the value read meets a condition. Between any two accesses the hardware may change
the bits that are its own.

A bit that the hardware does not set is a function of what it was before: after a run it is what
the accesses make of it one after the other (`Access.bit`).

## Main definitions

* `Registers`: the bits of the hardware, and the bits that make a register ignore writes.
* `Registers.Drift`: a change of the bits of the hardware.
* `Registers.Access`, `Registers.Step`: an access, and what it may lead to.
* `Registers.Access.bit`: what an access makes of a single bit.
* `Registers.WritesWhile`: the writes to a register find a bit of another one at a given value.
* `Registers.access?`: an access with a given behaviour of the hardware.

## Main results

* `Registers.getLsbD_of_run`: a bit after a run.
* `Registers.everyStep_getLsbD`: the value of a bit at the writes to a register.
* `Registers.getLsbD_of_run_locked`: a register that ignores all writes of a run.
-/

variable {ρ : Type*} {w : ℕ}

/-- Registers named by `ρ`: the bits of each that the hardware sets, and the bit while which is set
a register ignores writes. The hardware does not set that bit, and its register takes all
writes. -/
structure Registers (ρ : Type*) (w : ℕ) where
  hardware : ρ → BitVec w
  lock : ρ → Option (ρ × ℕ)
  lock_spec : ∀ x y i, lock x = some (y, i) → (hardware y).getLsbD i = false ∧ lock y = none

namespace Registers

/-- An access to a register: `x = v`, `x |= v`, `x &= v`, or a loop that reads `x` until the value
meets the condition. -/
inductive Access (ρ : Type*) (w : ℕ)
  | store (x : ρ) (v : BitVec w)
  | or (x : ρ) (v : BitVec w)
  | and (x : ρ) (v : BitVec w)
  | await (x : ρ) (p : BitVec w → Bool)

/-- The register that an access writes. -/
def Access.target : Access ρ w → Option ρ
  | .store x _ | .or x _ | .and x _ => some x
  | .await _ _ => none

variable (B : Registers ρ w)

/-- The register `x` ignores writes. -/
def locked (r : ρ → BitVec w) (x : ρ) : Bool := (B.lock x).any fun q => (r q.1).getLsbD q.2

/-- The hardware may lead from `r` to `r'`. -/
def Drift (r r' : ρ → BitVec w) : Prop :=
  ∀ x i, (B.hardware x).getLsbD i = false → (r' x).getLsbD i = (r x).getLsbD i

variable [DecidableEq ρ]

/-- The store of `v` to the register `x`, which leaves the bits of the hardware alone. -/
def write (r : ρ → BitVec w) (x : ρ) (v : BitVec w) : ρ → BitVec w :=
  if B.locked r x then r
  else Function.update r x (v &&& ~~~B.hardware x ||| r x &&& B.hardware x)

/-- An access, with changes of the bits of the hardware before each load and each store. -/
inductive Step : (ρ → BitVec w) → Access ρ w → (ρ → BitVec w) → Prop
  | store {r r₁ : ρ → BitVec w} {x : ρ} {v : BitVec w} (hd : B.Drift r r₁) :
      Step r (.store x v) (B.write r₁ x v)
  | or {r r₁ r₂ : ρ → BitVec w} {x : ρ} {v : BitVec w} (hd : B.Drift r r₁) (hd' : B.Drift r₁ r₂) :
      Step r (.or x v) (B.write r₂ x (r₁ x ||| v))
  | and {r r₁ r₂ : ρ → BitVec w} {x : ρ} {v : BitVec w} (hd : B.Drift r r₁) (hd' : B.Drift r₁ r₂) :
      Step r (.and x v) (B.write r₂ x (r₁ x &&& v))
  | done {r r₁ : ρ → BitVec w} {x : ρ} {p : BitVec w → Bool} (hd : B.Drift r r₁)
      (hp : p (r₁ x) = true) : Step r (.await x p) r₁
  | poll {r r₁ r₂ : ρ → BitVec w} {x : ρ} {p : BitVec w → Bool} (hd : B.Drift r r₁)
      (hp : p (r₁ x) = false) (h : Step r₁ (.await x p) r₂) : Step r (.await x p) r₂

/-- An access before which the hardware behaves as `hw`; a loop is left when its condition holds
at once. -/
def access? (hw : (ρ → BitVec w) → ρ → BitVec w) (r : ρ → BitVec w) :
    Access ρ w → Option (ρ → BitVec w)
  | .store x v => some (B.write (hw r) x v)
  | .or x v => some (B.write (hw r) x (hw r x ||| v))
  | .and x v => some (B.write (hw r) x (hw r x &&& v))
  | .await x p => if p (hw r x) then some (hw r) else none

/-- What an access that is not ignored makes of the bit `i` of the register `y`. -/
def Access.bit (y : ρ) (i : ℕ) (b : Bool) : Access ρ w → Bool
  | .store x v => if x = y then v.getLsbD i else b
  | .or x v => if x = y then b || v.getLsbD i else b
  | .and x v => if x = y then b && v.getLsbD i else b
  | .await _ _ => b

/-- The accesses that write the register `x` find the bit `i` of `y` at `c` when it is `b` at the
start. -/
def WritesWhile (x y : ρ) (i : ℕ) (c : Bool) : Bool → List (Access ρ w) → Prop
  | _, [] => True
  | b, a :: as => (a.target = some x → b = c) ∧ WritesWhile x y i c (a.bit y i b) as

instance decidableWritesWhile (x y : ρ) (i : ℕ) (c : Bool) :
    (b : Bool) → (as : List (Access ρ w)) → Decidable (WritesWhile x y i c b as)
  | _, [] => inferInstanceAs (Decidable True)
  | b, a :: as =>
    have := decidableWritesWhile x y i c (a.bit y i b) as
    inferInstanceAs (Decidable (_ ∧ WritesWhile x y i c (a.bit y i b) as))

variable {B} {r r' r₁ : ρ → BitVec w} {x y : ρ} {u v : BitVec w} {a : Access ρ w}
  {as : List (Access ρ w)} {i : ℕ} {b c : Bool}

/-! ### Single bits -/

omit [DecidableEq ρ] in
theorem Drift.refl (r : ρ → BitVec w) : B.Drift r r := fun _ _ _ => rfl

omit [DecidableEq ρ] in
theorem Drift.trans (h : B.Drift r r₁) (h' : B.Drift r₁ r') : B.Drift r r' := fun x i hi =>
  (h' x i hi).trans (h x i hi)

omit [DecidableEq ρ] in
theorem locked_eq (hl : B.lock x = some (y, i)) (r : ρ → BitVec w) :
    B.locked r x = (r y).getLsbD i := by
  rw [locked, hl]
  rfl

omit [DecidableEq ρ] in
theorem Drift.locked_eq (h : B.Drift r r') (x : ρ) : B.locked r' x = B.locked r x := by
  rcases hl : B.lock x with _ | ⟨y, i⟩
  · rw [locked, locked, hl]
    rfl
  · rw [Registers.locked_eq hl, Registers.locked_eq hl, h y i (B.lock_spec x y i hl).1]

/-- A bit of the software after a store. -/
theorem getLsbD_write (hi : (B.hardware y).getLsbD i = false) :
    (B.write r x v y).getLsbD i =
      if x = y ∧ B.locked r x = false then v.getLsbD i else (r y).getLsbD i := by
  rw [write]
  by_cases hl : B.locked r x = true
  · simp [hl]
  · rw [Bool.not_eq_true] at hl
    by_cases hxy : x = y
    · subst hxy
      rw [if_neg (by simp [hl]), if_pos ⟨rfl, hl⟩, Function.update_self, BitVec.getLsbD_or,
        BitVec.getLsbD_and, BitVec.getLsbD_and, BitVec.getLsbD_not, hi]
      by_cases hlt : i < w
      · simp [hlt]
      · simp [BitVec.getLsbD_of_ge v i (Nat.not_lt.mp hlt)]
    · simp [hl, hxy, Function.update_of_ne (Ne.symm hxy)]

/-- A bit of the software after an access. -/
theorem Step.getLsbD_eq (h : B.Step r a r') (hi : (B.hardware y).getLsbD i = false) :
    (r' y).getLsbD i =
      if a.target = some y → B.locked r y = false then a.bit y i ((r y).getLsbD i)
      else (r y).getLsbD i := by
  induction h with
  | @store r r₁ x v hd =>
    rw [getLsbD_write hi, hd.locked_eq, hd y i hi, Access.target, Access.bit]
    by_cases hxy : x = y
    · subst hxy
      simp
    · simp [hxy]
  | @or r r₁ r₂ x v hd hd' =>
    rw [getLsbD_write hi, (hd.trans hd').locked_eq, (hd.trans hd') y i hi, Access.target,
      Access.bit]
    by_cases hxy : x = y
    · subst hxy
      simp [hd x i hi]
    · simp [hxy]
  | @and r r₁ r₂ x v hd hd' =>
    rw [getLsbD_write hi, (hd.trans hd').locked_eq, (hd.trans hd') y i hi, Access.target,
      Access.bit]
    by_cases hxy : x = y
    · subst hxy
      simp [hd x i hi]
    · simp [hxy]
  | done hd => simpa [Access.target, Access.bit] using hd y i hi
  | poll hd _ _ ih =>
    rw [ih, hd y i hi]
    simp [Access.target]

/-! ### Runs -/

/-- A bit of the software after a run in which no write to its register is ignored. -/
theorem getLsbD_of_run_unlocked (h : Run B.Step r as r') (hi : (B.hardware y).getLsbD i = false)
    (hl : Run.EveryStep B.Step (fun r a => a.target = some y → B.locked r y = false) r as) :
    (r' y).getLsbD i = as.foldl (Access.bit y i) ((r y).getLsbD i) := by
  induction h with
  | nil => rfl
  | @cons r r₁ r' a as hs hr ih =>
    have hhead := hs.getLsbD_eq hi
    rw [if_pos (hl [] a as r rfl (.nil r))] at hhead
    rw [ih (hl.of_cons hs), hhead, List.foldl_cons]

/-- A bit of the software after a run, in a register that takes all writes. -/
theorem getLsbD_of_run (h : Run B.Step r as r') (hl : B.lock y = none)
    (hi : (B.hardware y).getLsbD i = false) :
    (r' y).getLsbD i = as.foldl (Access.bit y i) ((r y).getLsbD i) := by
  refine getLsbD_of_run_unlocked h hi fun _ _ _ r _ _ _ => ?_
  rw [locked, hl]
  rfl

/-- A bit of the software after a run in which all writes to its register are ignored. -/
theorem getLsbD_of_run_locked (h : Run B.Step r as r') (hi : (B.hardware y).getLsbD i = false)
    (hl : Run.EveryStep B.Step (fun r a => a.target = some y → B.locked r y = true) r as) :
    (r' y).getLsbD i = (r y).getLsbD i := by
  induction h with
  | nil => rfl
  | @cons r r₁ r' a as hs hr ih =>
    rw [ih (hl.of_cons hs), hs.getLsbD_eq hi]
    split_ifs with hun
    · have hlock := hl [] a as r rfl (.nil r)
      cases a with
      | await x p => rfl
      | store x v | or x v | and x v =>
        -- a write to `y` would be ignored
        have hxy : x ≠ y := by
          rintro rfl
          exact absurd ((hun rfl).symm.trans (hlock rfl)) Bool.false_ne_true
        simp [Access.bit, hxy]
    · rfl

/-- In every run the writes to `x` find the bit `i` of `y` at `c`. -/
theorem everyStep_getLsbD (hy : B.lock y = none) (hi : (B.hardware y).getLsbD i = false)
    (h : WritesWhile x y i c ((r y).getLsbD i) as) :
    Run.EveryStep B.Step (fun r a => a.target = some x → (r y).getLsbD i = c) r as := by
  induction as generalizing r with
  | nil => exact Run.everyStep_nil
  | cons a as ih =>
    refine .cons_of_forall h.1 fun r₁ hs => ih ?_
    have hun : B.locked r y = false := by
      rw [locked, hy]
      rfl
    rw [hs.getLsbD_eq hi, if_pos fun _ => hun]
    exact h.2

/-- In every run the writes to `x` are ignored, or none of them is. -/
theorem everyStep_of_writesWhile (hl : B.lock x = some (y, i))
    (h : WritesWhile x y i c ((r y).getLsbD i) as) :
    Run.EveryStep B.Step (fun r a => a.target = some x → B.locked r x = c) r as := by
  obtain ⟨hi, hy⟩ := B.lock_spec x y i hl
  intro as₁ a as₂ r₁ has hr ha
  exact (locked_eq hl r₁).trans (everyStep_getLsbD hy hi h as₁ a as₂ r₁ has hr ha)

/-! ### Runs with a given behaviour of the hardware -/

/-- A behaviour of the hardware that changes no other bits gives steps. -/
theorem step_of_access? {hw : (ρ → BitVec w) → ρ → BitVec w} (hhw : ∀ r, B.Drift r (hw r))
    (h : B.access? hw r a = some r') : B.Step r a r' := by
  cases a with
  | store x v => exact Option.some.inj h ▸ .store (hhw r)
  | or x v => exact Option.some.inj h ▸ .or (hhw r) (.refl _)
  | and x v => exact Option.some.inj h ▸ .and (hhw r) (.refl _)
  | await x p =>
    rw [access?] at h
    split_ifs at h with hp
    exact Option.some.inj h ▸ .done (hhw r) hp

theorem run_of_access? {hw : (ρ → BitVec w) → ρ → BitVec w} (hhw : ∀ r, B.Drift r (hw r))
    (h : Run.eval (B.access? hw) r as = some r') : Run B.Step r as r' :=
  Run.of_eval (fun _ _ _ => step_of_access? hhw) h

end Registers
