import LiteRTOS.Library.Run

/-!
# Simulations

Two programs that may fail correspond if they fail alike or succeed with corresponding results
(`Except.Rel`); the correspondence is built along the binds. A system whose steps are matched by
runs of another one has all its runs matched (`Run.simulate`): a step may be matched by no step at
all.

## Main definitions

* `Except.Rel`: corresponding outcomes of two computations.

## Main results

* `Except.Rel.bind`: the correspondence of sequenced computations.
* `Run.simulate`, `Run.EveryStep.simulate`: from steps to runs, and to conditions on every step.
-/

/-- Both computations fail with the same error, or both succeed with results in the relation. -/
inductive Except.Rel {ε α β : Type*} (R : α → β → Prop) : Except ε α → Except ε β → Prop
  | error (e : ε) : Rel R (.error e) (.error e)
  | ok {a : α} {b : β} (h : R a b) : Rel R (.ok a) (.ok b)

namespace Except.Rel

section Outcome

variable {ε α β : Type*} {R R' : α → β → Prop} {x : Except ε α} {y : Except ε β} {a : α} {b : β}
  {e : ε}

theorem mono (h : Rel R x y) (hR : ∀ a b, R a b → R' a b) : Rel R' x y := by
  cases h with
  | error e => exact .error e
  | ok h => exact .ok (hR _ _ h)

theorem exists_of_ok (h : Rel R (.ok a) y) : ∃ b, y = .ok b ∧ R a b := by
  cases h with
  | ok h => exact ⟨_, rfl, h⟩

theorem of_ok_ok (h : Rel R (.ok a : Except ε α) (.ok b)) : R a b := by
  cases h with
  | ok h => exact h

theorem refl (x : Except ε α) : Rel Eq x x := by
  rcases x with e | a
  · exact .error e
  · exact .ok rfl

end Outcome

section Bind

universe u

variable {ε α β γ δ : Type u} {R : α → β → Prop} {S : γ → δ → Prop} {x : Except ε α}
  {y : Except ε β} {f : α → Except ε γ} {g : β → Except ε δ}

theorem bind (h : Rel R x y) (hf : ∀ a b, R a b → Rel S (f a) (g b)) :
    Rel S (x >>= f) (y >>= g) := by
  cases h with
  | error e => exact .error e
  | ok h => exact hf _ _ h

/-- A relation that every step keeps is kept by a sequence of steps. -/
theorem foldlM {κ : Type*} {l : List κ} {f : α → κ → Except ε α} {g : β → κ → Except ε β}
    (hf : ∀ c ∈ l, ∀ a b, R a b → Rel R (f a c) (g b c)) {a : α} {b : β} (h : R a b) :
    Rel R (l.foldlM f a) (l.foldlM g b) := by
  induction l generalizing a b with
  | nil => exact .ok h
  | cons c l ih =>
    rw [List.foldlM_cons, List.foldlM_cons]
    refine (hf c List.mem_cons_self a b h).bind fun a' b' h' => ?_
    exact ih (fun d hd => hf d (List.mem_cons_of_mem c hd)) h'

end Bind

end Except.Rel

namespace Run

variable {σ τ ε δ : Type*} {step : σ → ε → σ → Prop} {step' : τ → δ → τ → Prop}
  {R : σ → τ → Prop} {f : ε → List δ} {s s' : σ} {es : List ε} {t : τ}

/-- A step is matched by the run of the events that `f` gives for it. Then a run is matched by the
run of all of them. -/
theorem simulate (hstep : ∀ s e s' t, R s t → step s e s' → ∃ t', Run step' t (f e) t' ∧ R s' t')
    (h : Run step s es s') (hst : R s t) : ∃ t', Run step' t (es.flatMap f) t' ∧ R s' t' := by
  induction h generalizing t with
  | nil s => exact ⟨t, .nil t, hst⟩
  | cons hs _ ih =>
    obtain ⟨t₁, hr₁, h₁⟩ := hstep _ _ _ _ hst hs
    obtain ⟨t', hr', h'⟩ := ih h₁
    exact ⟨t', by rw [List.flatMap_cons]; exact append_iff.mpr ⟨t₁, hr₁, hr'⟩, h'⟩

section Deterministic

variable (hdet : ∀ t d t₁ t₂, step' t d t₁ → step' t d t₂ → t₁ = t₂)

include hdet

theorem unique {t₁ t₂ : τ} {ds : List δ} (h₁ : Run step' t ds t₁) (h₂ : Run step' t ds t₂) :
    t₁ = t₂ := by
  induction h₁ with
  | nil => exact nil_iff.mp h₂
  | cons h _ ih =>
    obtain ⟨u, hu, hr⟩ := cons_iff.mp h₂
    exact ih (hdet _ _ _ _ hu h ▸ hr)

theorem EveryStep.append {D : τ → δ → Prop} {ds ds' : List δ} {u : τ} (hr : Run step' t ds u)
    (h : EveryStep step' D t ds) (h' : EveryStep step' D u ds') :
    EveryStep step' D t (ds ++ ds') := by
  induction hr with
  | nil => exact h'
  | cons hs _ ih =>
    obtain ⟨hD, hrest⟩ := (everyStep_cons hdet hs).mp h
    exact (everyStep_cons hdet hs).mpr ⟨hD, ih hrest h'⟩

/-- The steps that meet the condition `C` are matched by runs all of whose steps meet `D`. -/
theorem EveryStep.simulate {C : σ → ε → Prop} {D : τ → δ → Prop}
    (hstep : ∀ s e s' t, R s t → step s e s' → C s e →
      ∃ t', Run step' t (f e) t' ∧ R s' t' ∧ EveryStep step' D t (f e))
    (h : Run step s es s') (hC : EveryStep step C s es) (hst : R s t) :
    EveryStep step' D t (es.flatMap f) := by
  induction h generalizing t with
  | nil s => exact everyStep_nil
  | @cons s u s' e es hs _ ih =>
    obtain ⟨t₁, hr₁, h₁, hD⟩ := hstep _ _ _ _ hst hs (hC [] e es s rfl (.nil s))
    rw [List.flatMap_cons]
    exact hD.append hdet hr₁ (ih (hC.of_cons hs) h₁)

end Deterministic

end Run
