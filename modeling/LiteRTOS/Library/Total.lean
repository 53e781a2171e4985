import LiteRTOS.Library.Run
import Mathlib.Algebra.Group.Prod
import Mathlib.Algebra.Group.Defs

/-!
# Totals along runs

A quantity that every step contributes to has a total along a run (`Run.total`). An invariant may
speak about the total so far (`Run.invariant_total`). In particular, if every step changes a
function of the state by the difference of two quantities, then a run changes it by the difference
of their totals (`Run.total_balance`).

## Main definitions

* `Run.total`: the sum of a quantity over the steps of a run of a partial function.

## Main results

* `Run.invariant_total`: an invariant of the states and the total so far.
* `Run.total_balance`: two totals that differ by a function of the state.
-/

variable {σ ε M N : Type*}

namespace Run

/-- The sum of `f` over the steps of the run of `es` from `s`, each with the state it is taken
in. -/
def total [AddMonoid M] (step? : σ → ε → Option σ) (f : σ → ε → M) : σ → List ε → M
  | _, [] => 0
  | s, e :: es => f s e + (step? s e).elim 0 fun s' => total step? f s' es

section Total

variable [AddMonoid M] [AddMonoid N] {step : σ → ε → σ → Prop} {step? : σ → ε → Option σ}
  {f : σ → ε → M} {g : σ → ε → N} {s t : σ} {e : ε} {es fs : List ε}

@[simp] theorem total_nil : total step? f s [] = 0 := rfl

theorem total_cons (h : step? s e = some t) :
    total step? f s (e :: es) = f s e + total step? f t es := by
  rw [total, h, Option.elim_some]

theorem total_prod : total step? (fun s e => (f s e, g s e)) s es =
    (total step? f s es, total step? g s es) := by
  induction es generalizing s with
  | nil => rfl
  | cons e es ih =>
    cases h : step? s e with
    | none => simp [total, h]
    | some t => rw [total_cons h, total_cons h, total_cons h, ih, Prod.mk_add_mk]

variable (hstep : ∀ s e t, step s e t → step? s e = some t)

include hstep

/-- An invariant of the states and the total so far. -/
theorem invariant_total {P : σ → M → Prop}
    (hP : ∀ s e t m, P s m → step s e t → P t (m + f s e)) (h : Run step s es t) (hs : P s 0) :
    P t (total step? f s es) := by
  suffices hgen : ∀ m, P s m → P t (m + total step? f s es) from zero_add (total step? f s es) ▸
    hgen 0 hs
  clear hs
  induction h with
  | nil s => exact fun m hm => by rwa [total_nil, add_zero]
  | @cons s t u e es hs hr ih =>
    intro m hm
    rw [total_cons (hstep _ _ _ hs), ← add_assoc]
    exact ih _ (hP _ _ _ _ hm hs)

end Total

/-- A run all of whose steps meet the condition `C` is a run of the steps that do. -/
theorem of_everyStep {step : σ → ε → σ → Prop} {C : σ → ε → Prop} {s t : σ} {es : List ε}
    (h : Run step s es t) (hC : EveryStep step C s es) :
    Run (fun s e t => step s e t ∧ C s e) s es t := by
  induction h with
  | nil s => exact .nil s
  | @cons s t u e es hs _ ih => exact .cons ⟨hs, hC [] e es s rfl (.nil s)⟩ (ih (hC.of_cons hs))

/-- If every step changes `Φ` by what it adds to the total of `f` over what it adds to the total of
`g`, so does a run. -/
theorem total_balance [AddCommMonoid M] {step : σ → ε → σ → Prop} {step? : σ → ε → Option σ}
    {f g : σ → ε → M} {Φ : σ → M} {I : σ → Prop} {s t : σ} {es : List ε}
    (hstep : ∀ s e t, step s e t → step? s e = some t)
    (hI : ∀ s e t, I s → step s e t → I t ∧ Φ t + g s e = Φ s + f s e)
    (h : Run step s es t) (hs : I s) :
    Φ t + total step? g s es = Φ s + total step? f s es := by
  have hP : I t ∧ Φ t + (total step? (fun s e => (f s e, g s e)) s es).2 =
      Φ s + (total step? (fun s e => (f s e, g s e)) s es).1 := by
    refine invariant_total (P := fun u (m : M × M) => I u ∧ Φ u + m.2 = Φ s + m.1) hstep ?_ h
      ⟨hs, rfl⟩
    rintro u e v ⟨m₁, m₂⟩ ⟨hu, hm⟩ huv
    obtain ⟨hv, hbal⟩ := hI u e v hu huv
    refine ⟨hv, ?_⟩
    calc Φ v + (m₂ + g u e) = m₂ + (Φ v + g u e) := add_left_comm ..
      _ = m₂ + (Φ u + f u e) := by rw [hbal]
      _ = Φ u + m₂ + f u e := by rw [← add_assoc, add_comm m₂]
      _ = Φ s + (m₁ + f u e) := by rw [← add_assoc]; exact congrArg (· + f u e) hm
  rw [total_prod] at hP
  exact hP.2

end Run
