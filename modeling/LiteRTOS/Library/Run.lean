import Mathlib.Data.List.Basic
import Mathlib.Order.Defs.Unbundled

/-!
# Finite runs of a labelled transition relation

`Run step s es t` says that from the state `s` the events `es`, the first one first, can take
place one after the other and lead to `t`. The file has the rules by which properties of single
steps become properties of runs: composition, invariants and counters. A run of a function that
may fail is a `List.foldlM`, for which the order of steps that commute does not matter.

## Main definitions

* `Run`: finite runs.
* `Run.eval`: runs of a partial function.
* `Run.Everywhere`: a property of every state that a run from `s` passes through.
* `Run.EveryStep`: a condition on every step of a run and the state it is taken in.
* `Run.check`: its check along a run of a partial function.
* `Run.Guarded`, `Run.Guarded.step?`: the steps of a function that may fail, under a guard.

## Main results

* `Run.append_iff`, `Run.concat_iff`: splitting a run.
* `Run.invariant`: an invariant of the steps holds along runs.
* `Run.everywhere_of_everyStep`: an invariant of the steps that meet a condition.
* `Run.EveryStep.of_invariant`: from a condition on every step to another one.
* `Run.everywhere_iff_everyStep`: when the steps that meet the condition are exactly those that
  keep a property.
* `Run.Guarded.exists_run_of_any`, `Run.Guarded.everyStep_of_check`: runs of guarded steps that are
  carried out.
* `List.Perm.foldlM_eq`: steps that commute.
-/

variable {σ ε : Type*}

/-- From `s` the events `es` lead to `t`, one step after the other. -/
inductive Run (step : σ → ε → σ → Prop) : σ → List ε → σ → Prop
  | nil (s : σ) : Run step s [] s
  | cons {s t u : σ} {e : ε} {es : List ε} (h : step s e t) (hr : Run step t es u) :
      Run step s (e :: es) u

namespace Run

variable {step : σ → ε → σ → Prop} {s t u : σ} {e : ε} {es fs : List ε}

@[simp] theorem nil_iff : Run step s [] t ↔ s = t :=
  ⟨fun h => by cases h; rfl, fun h => h ▸ .nil s⟩

@[simp] theorem cons_iff : Run step s (e :: es) u ↔ ∃ t, step s e t ∧ Run step t es u :=
  ⟨fun h => by cases h with | cons h hr => exact ⟨_, h, hr⟩, fun ⟨_, h, hr⟩ => .cons h hr⟩

theorem append_iff : Run step s (es ++ fs) u ↔ ∃ t, Run step s es t ∧ Run step t fs u := by
  induction es generalizing s with
  | nil => simp
  | cons e es ih =>
    simp only [List.cons_append, cons_iff, ih]
    constructor
    · rintro ⟨s', h, t, hes, hfs⟩
      exact ⟨t, ⟨s', h, hes⟩, hfs⟩
    · rintro ⟨t, ⟨s', h, hes⟩, hfs⟩
      exact ⟨s', h, t, hes, hfs⟩

theorem concat_iff : Run step s (es ++ [e]) u ↔ ∃ t, Run step s es t ∧ step t e u := by
  simp [append_iff]

/-- A property that every step preserves holds along runs. -/
theorem invariant {P : σ → Prop} (hstep : ∀ s e t, P s → step s e t → P t)
    (h : Run step s es t) (hs : P s) : P t := by
  induction h with
  | nil => exact hs
  | cons h _ ih => exact ih (hstep _ _ _ hs h)

/-! ### Runs of a partial function -/

/-- The events `es`, carried out one after the other by a partial function. -/
def eval (step? : σ → ε → Option σ) : σ → List ε → Option σ
  | s, [] => some s
  | s, e :: es => (step? s e).bind fun s' => eval step? s' es

theorem of_eval {step? : σ → ε → Option σ} (hstep : ∀ s e s', step? s e = some s' → step s e s')
    (h : eval step? s es = some t) : Run step s es t := by
  induction es generalizing s with
  | nil => exact nil_iff.mpr (Option.some.inj h)
  | cons e es ih =>
    obtain ⟨s', hs', hr⟩ := Option.bind_eq_some_iff.mp h
    exact .cons (hstep _ _ _ hs') (ih hr)

/-- The state reached by a run of a partial function, with what has been checked of it. -/
theorem exists_of_any {step? : σ → ε → Option σ} {P : σ → Bool}
    (hstep : ∀ s e s', step? s e = some s' → step s e s') (h : (eval step? s es).any P = true) :
    ∃ t, Run step s es t ∧ P t = true := by
  obtain ⟨t, ht, hP⟩ := (Option.any_eq_true _ _).mp h
  exact ⟨t, of_eval hstep ht, hP⟩

/-! ### Properties of all states on the way -/

/-- `P` holds in every state that the run of `es` from `s` passes through, the first and the last
included. -/
def Everywhere (step : σ → ε → σ → Prop) (P : σ → Prop) (s : σ) (es : List ε) : Prop :=
  ∀ es₁ es₂ t, es = es₁ ++ es₂ → Run step s es₁ t → P t

/-- Every step of the run of `es` from `s` meets the condition `C` on the state it is taken in and
its event. -/
def EveryStep (step : σ → ε → σ → Prop) (C : σ → ε → Prop) (s : σ) (es : List ε) : Prop :=
  ∀ es₁ e es₂ t, es = es₁ ++ e :: es₂ → Run step s es₁ t → C t e

variable {P I : σ → Prop} {C : σ → ε → Prop} {E : ε → Prop}

theorem everywhere_nil : Everywhere step P s [] ↔ P s := by
  constructor
  · exact fun h => h [] [] s rfl (.nil s)
  · intro h es₁ es₂ t hes hr
    obtain ⟨rfl, -⟩ := List.append_eq_nil_iff.mp hes.symm
    exact nil_iff.mp hr ▸ h

theorem everyStep_nil : EveryStep step C s [] := fun es₁ e es₂ _ h _ => by simp at h

theorem EveryStep.of_forall_mem (h : ∀ e ∈ es, ∀ t, C t e) : EveryStep step C s es := by
  intro es₁ e es₂ t hes _
  refine h e ?_ t
  rw [hes]
  exact List.mem_append_right _ List.mem_cons_self

theorem EveryStep.of_cons (h : EveryStep step C s (e :: es)) (hs : step s e t) :
    EveryStep step C t es := fun es₁ e' es₂ u hes hr =>
  h (e :: es₁) e' es₂ u (by rw [hes, List.cons_append]) (.cons hs hr)

theorem EveryStep.cons_of_forall (hC : C s e) (h : ∀ t, step s e t → EveryStep step C t es) :
    EveryStep step C s (e :: es) := by
  intro es₁ e' es₂ u hes hr
  cases es₁ with
  | nil =>
    obtain ⟨rfl, -⟩ := List.cons.inj hes
    exact nil_iff.mp hr ▸ hC
  | cons e'' es₁ =>
    obtain ⟨rfl, rfl⟩ := List.cons.inj hes
    obtain ⟨t, ht, hr'⟩ := cons_iff.mp hr
    exact h t ht es₁ e' es₂ u rfl hr'

/-- The check `C` of every step of `es` that a partial function carries out. -/
def check (step? : σ → ε → Option σ) (C : σ → ε → Bool) : σ → List ε → Bool
  | _, [] => true
  | s, e :: es => C s e && (step? s e).all fun s' => check step? C s' es

theorem everyStep_of_check {step? : σ → ε → Option σ} {C : σ → ε → Bool}
    (hstep : ∀ s e s', step s e s' → step? s e = some s') (h : check step? C s es = true) :
    EveryStep step (fun s e => C s e = true) s es := by
  induction es generalizing s with
  | nil => exact everyStep_nil
  | cons e es ih =>
    obtain ⟨hC, hrest⟩ := Bool.and_eq_true_iff.mp h
    refine .cons_of_forall hC fun t ht => ih ?_
    rw [hstep _ _ _ ht] at hrest
    exact hrest

section Deterministic

variable (hdet : ∀ s e t t', step s e t → step s e t' → t = t')

include hdet

theorem everywhere_cons (h : step s e t) :
    Everywhere step P s (e :: es) ↔ P s ∧ Everywhere step P t es := by
  constructor
  · intro hP
    refine ⟨hP [] (e :: es) s rfl (.nil s), fun es₁ es₂ u hes hr => ?_⟩
    exact hP (e :: es₁) es₂ u (by rw [hes, List.cons_append]) (.cons h hr)
  · rintro ⟨hs, ht⟩ es₁ es₂ u hes hr
    cases es₁ with
    | nil => exact nil_iff.mp hr ▸ hs
    | cons e' es₁ =>
      obtain ⟨rfl, rfl⟩ := List.cons.inj hes
      obtain ⟨t', h', hr'⟩ := cons_iff.mp hr
      exact ht es₁ es₂ u rfl (hdet _ _ _ _ h' h ▸ hr')

theorem everyStep_cons (h : step s e t) :
    EveryStep step C s (e :: es) ↔ C s e ∧ EveryStep step C t es := by
  constructor
  · intro hC
    exact ⟨hC [] e es s rfl (.nil s), hC.of_cons h⟩
  · rintro ⟨hs, ht⟩
    exact .cons_of_forall hs fun t' h' => hdet _ _ _ _ h h' ▸ ht

/-- Let the steps that meet the condition `C` keep the invariant `I` and meet `D`. Then every step
of a run meets `D` if every step of it meets `C`. -/
theorem EveryStep.of_invariant {D : σ → ε → Prop}
    (hgood : ∀ s e t, I s → C s e → step s e t → I t ∧ D s e) (h : Run step s es t)
    (hC : EveryStep step C s es) (hs : I s) : EveryStep step D s es := by
  induction h with
  | nil s => exact everyStep_nil
  | @cons s t u e es h hr ih =>
    obtain ⟨hCs, hCt⟩ := (everyStep_cons hdet h).mp hC
    obtain ⟨ht, hD⟩ := hgood _ _ _ hs hCs h
    exact (everyStep_cons hdet h).mpr ⟨hD, ih hCt ht⟩

/-- Let the steps that meet the condition `C` keep the invariant `I`, which implies `P`. Then `P`
holds everywhere in a run all of whose steps meet the condition. -/
theorem everywhere_of_everyStep (hIP : ∀ s, I s → P s)
    (hgood : ∀ s e t, E e → I s → C s e → step s e t → I t) (h : Run step s es t)
    (hE : ∀ e ∈ es, E e) (hC : EveryStep step C s es) (hs : I s) : Everywhere step P s es := by
  induction h with
  | nil s => exact everywhere_nil.mpr (hIP s hs)
  | @cons s t u e es h hr ih =>
    obtain ⟨hCs, hCt⟩ := (everyStep_cons hdet h).mp hC
    rw [everywhere_cons hdet h]
    exact ⟨hIP s hs, ih (fun e he => hE e (List.mem_cons_of_mem _ he)) hCt
      (hgood _ _ _ (hE e List.mem_cons_self) hs hCs h)⟩

/-- If moreover the steps that do not meet the condition lead from `I` to a state without `P`, then
`P` holds everywhere in a run exactly when all its steps meet the condition. -/
theorem everywhere_iff_everyStep (hIP : ∀ s, I s → P s)
    (hgood : ∀ s e t, E e → I s → C s e → step s e t → I t)
    (hbad : ∀ s e t, E e → I s → ¬C s e → step s e t → ¬P t) (h : Run step s es t)
    (hE : ∀ e ∈ es, E e) (hs : I s) : Everywhere step P s es ↔ EveryStep step C s es := by
  refine ⟨fun hP => ?_, fun hC => everywhere_of_everyStep hdet hIP hgood h hE hC hs⟩
  induction h with
  | nil s => exact everyStep_nil
  | @cons s t u e es h hr ih =>
    rw [everywhere_cons hdet h] at hP
    rw [everyStep_cons hdet h]
    have hEe := hE e List.mem_cons_self
    by_cases hC : C s e
    · exact ⟨hC, ih (fun e he => hE e (List.mem_cons_of_mem _ he))
        (hgood _ _ _ hEe hs hC h) hP.2⟩
    · exact absurd (hP.2 [] es t rfl (.nil t)) (hbad _ _ _ hEe hs hC h)

end Deterministic

/-! ### Guarded steps -/

/-- The step of a function that may fail, which is taken when its guard holds. -/
structure Guarded {φ : Type*} (enabled : σ → ε → Prop) (exec : σ → ε → Except φ σ) (s : σ) (e : ε)
    (s' : σ) : Prop where
  enabled : enabled s e
  exec : exec s e = .ok s'

namespace Guarded

variable {φ : Type*} {enabled : σ → ε → Prop} {exec : σ → ε → Except φ σ} {s s' : σ}

theorem unique (s : σ) (e : ε) (s₁ s₂ : σ) (h₁ : Guarded enabled exec s e s₁)
    (h₂ : Guarded enabled exec s e s₂) : s₁ = s₂ :=
  Except.ok.inj (h₁.exec.symm.trans h₂.exec)

variable (enabled exec) in
/-- The event `e`, carried out if it may take place. -/
def step? [∀ s e, Decidable (enabled s e)] (s : σ) (e : ε) : Option σ :=
  if enabled s e then (exec s e).toOption else none

variable [∀ s e, Decidable (enabled s e)]

theorem step?_eq_some : step? enabled exec s e = some s' ↔ Guarded enabled exec s e s' := by
  have hok : (exec s e).toOption = some s' ↔ exec s e = .ok s' := by
    rcases exec s e with x | s₁ <;> simp [Except.toOption]
  rw [step?, ite_eq_iff]
  constructor
  · rintro (⟨hen, h⟩ | ⟨-, h⟩)
    · exact ⟨hen, hok.mp h⟩
    · cases h
  · exact fun h => Or.inl ⟨h.enabled, hok.mpr h.exec⟩

/-- The state reached by events that are carried out, with what has been checked of it. -/
theorem exists_run_of_any {P : σ → Bool} (h : (eval (step? enabled exec) s es).any P = true) :
    ∃ t, Run (Guarded enabled exec) s es t ∧ P t = true :=
  exists_of_any (fun _ _ _ => step?_eq_some.mp) h

/-- The condition that has been checked of every event. -/
theorem everyStep_of_check {C : σ → ε → Bool} (h : check (step? enabled exec) C s es = true) :
    EveryStep (Guarded enabled exec) (fun s e => C s e = true) s es :=
  Run.everyStep_of_check (fun _ _ _ => step?_eq_some.mpr) h

end Guarded

end Run

section Commuting

universe u v

/-- Steps of which any two commute can be made in any order. -/
theorem List.Perm.foldlM_eq {α : Type*} {σ : Type u} {m : Type u → Type v} [Monad m]
    [LawfulMonad m] {f : σ → α → m σ} {l l' : List α} (h : l.Perm l')
    (hcomm : ∀ a ∈ l, ∀ b ∈ l, ∀ s, (do f (← f s a) b) = (do f (← f s b) a)) (s : σ) :
    l.foldlM f s = l'.foldlM f s := by
  induction h generalizing s with
  | nil => rfl
  | @cons a l l' _ ih =>
    have hrest := ih fun b hb c hc =>
      hcomm b (List.mem_cons_of_mem _ hb) c (List.mem_cons_of_mem _ hc)
    simp only [List.foldlM_cons, hrest]
  | swap a b l =>
    have hswap := congrArg (· >>= l.foldlM f) (hcomm b (by simp) a (by simp) s)
    simpa only [List.foldlM_cons, bind_assoc] using hswap
  | @trans l₁ l₂ l₃ h₁ _ ih₁ ih₂ =>
    have hcomm₂ : ∀ a ∈ l₂, ∀ b ∈ l₂, ∀ s, (do f (← f s a) b) = (do f (← f s b) a) :=
      fun a ha b hb => hcomm a (h₁.mem_iff.mpr ha) b (h₁.mem_iff.mpr hb)
    exact (ih₁ hcomm s).trans (ih₂ hcomm₂ s)

end Commuting
