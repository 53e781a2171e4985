import LiteRTOS.Core.ContextSwitch

/-!
# Floating-point contexts across switches

`PendSV_Handler` does not save the EXC_RETURN value in LR with the thread that it was made for: it
returns to the next thread with the value of its own entry. The value names the format of the frame
of the thread that was preempted, and the frame popped is the one of the thread that is dispatched.

## Main definitions

* `frameExtended`: the format of the frame on the stack of a thread.
* `Layout.FpKept`: the return names the format of the frame that is there, and the thread has its
  floating-point registers.

## Main results

* `Layout.Inv.fpKept_iff`: one switch.
* `Layout.fp_context_preserved_iff`: a run keeps the floating-point contexts exactly if no switch to
  another thread is made with an active floating-point context.
* `Layout.fp_format_mismatch`: a thread that uses floating point is preempted by one that does not.
-/

namespace LiteRTOS

open ByteMemory

/-- Whether the frame on the stack of a thread is an extended one, given the state in which the
thread was preempted. The frame that `OSThread_Start` sets up is a basic one. -/
def frameExtended : Option Cpu → Bool
  | some x => x.fpca
  | none => false

namespace Layout

variable {ι : Type*} [DecidableEq ι]

/-- In a switch to `t` the EXC_RETURN value names the format of the frame on the stack of `t`, and
`t` has the registers S0 to S31 that it had when it was preempted. -/
structure FpKept (L : Layout ι) (c : Core ι) (t : ι) : Prop where
  format : namesExtended (pendSVExit L.osCurr L.osNext c.cpu).lr = frameExtended (c.preempt t)
  s : ∀ x, c.preempt t = some x → (pendSV L.osCurr L.osNext c.cpu).s = x.s

variable {L : Layout ι} {ts : List ι} {c : Core ι} {t : ι}

/-- A thread that is not running has a basic frame. -/
theorem Inv.frameExtended_preempted (h : L.Inv ts c) (ht : t ∈ ts) (hcurr : c.curr ≠ some t) :
    frameExtended (c.preempt t) = false := by
  rw [preempt_of_ne hcurr]
  rcases hx : c.preempted t with _ | x
  · rfl
  · exact (h.kept t ht hcurr x hx).fpca

/-- A switch keeps the floating-point context of the thread dispatched exactly if no context is
active or the thread is the one that runs. -/
theorem Inv.fpKept_iff (h : L.Inv ts c) (ht : t ∈ ts)
    (hnext : load32 c.cpu.mem L.osNext = L.tcb t) :
    L.FpKept c t ↔ (c.cpu.fpca = true → c.curr = some t) := by
  constructor
  · intro hkept hactive
    by_contra hcurr
    have hformat := hkept.format
    rw [lr_pendSVExit, namesExtended_excReturn, h.frameExtended_preempted ht hcurr, hactive]
      at hformat
    exact Bool.false_ne_true hformat.symm
  · intro hactive
    have hs := h.s_pendSV ht hnext hactive
    refine ⟨?_, fun x hx => hs.trans ?_⟩
    · rw [lr_pendSVExit, namesExtended_excReturn]
      by_cases hcurr : c.curr = some t
      · rw [preempt_of_eq hcurr, frameExtended]
      · rw [h.frameExtended_preempted ht hcurr, fpca_of_ne hactive hcurr]
    · by_cases hcurr : c.curr = some t
      · obtain rfl : c.cpu = x := Option.some.inj ((preempt_of_eq hcurr).symm.trans hx)
        rfl
      · exact (h.kept t ht hcurr x ((preempt_of_ne hcurr).symm.trans hx)).s
          (fpca_of_ne hactive hcurr)

/-- In a run every switch keeps the floating-point contexts exactly if no switch from one thread to
another, or from `main`, is made with an active floating-point context. -/
theorem fp_context_preserved_iff (L : Layout ι) (ts : List ι) {m₀ : ByteMemory}
    (hcurr : load32 m₀ L.osCurr = 0) :
    ∃ m, L.setUp ts m₀ = .ok m ∧ ∀ c₀ es c, L.Init m c₀ → Run (L.Step ts) c₀ es c →
      (Run.EveryStep (L.Step ts) (fun c e => e.Switches fun t => L.FpKept c t) c₀ es ↔
        Run.EveryStep (L.Step ts)
          (fun c e => e.Switches fun t => c.cpu.fpca = true → c.curr = some t) c₀ es) := by
  obtain ⟨m, hm, hstarted, hcurr', -⟩ := L.exists_setUp ts m₀
  have hiff (c e c') (hinv : L.Inv ts c) (hstep : L.Step ts c e c') :
      (e.Switches fun t => L.FpKept c t) ↔
        e.Switches fun t => c.cpu.fpca = true → c.curr = some t := by
    cases hstep with
    | work => exact Iff.rfl
    | pendSV ht hnext _ => exact hinv.fpKept_iff ht hnext
  refine ⟨m, hm, fun c₀ es c hinit hrun => ?_⟩
  have hinv := hinit.inv hstarted (hcurr'.trans hcurr)
  constructor
  · intro hkept
    refine Run.EveryStep.of_invariant Step.unique (fun c e c' hinv hfp hstep => ?_) hrun hkept hinv
    have hactive := (hiff c e c' hinv hstep).mp hfp
    exact ⟨(hinv.step hactive hstep).1, hactive⟩
  · intro hactive
    refine Run.EveryStep.of_invariant Step.unique (fun c e c' hinv hfp hstep => ?_) hrun hactive
      hinv
    exact ⟨(hinv.step hfp hstep).1, (hiff c e c' hinv hstep).mpr hfp⟩

/-! ### A thread that uses floating point -/

/-- The first thread is dispatched, uses floating point and leaves `OS_Next` at the thread `u`. -/
theorem exists_fp_run (u : Bool) : ∃ m c₁ c₂ c₃,
    exampleLayout.setUp [false, true] (fun _ => 0) = .ok m ∧
    exampleLayout.Step [false, true] (exampleCore m) (.work c₁.cpu) c₁ ∧
    exampleLayout.Step [false, true] c₁ (.pendSV false) c₂ ∧
    exampleLayout.Step [false, true] c₂ (.work c₃.cpu) c₃ ∧
    c₁.cpu.fpca = false ∧ exampleLayout.Inv [false, true] c₃ ∧ c₃.curr = some false ∧
    c₃.cpu.fpca = true ∧ c₃.cpu.primask = false ∧
    load32 c₃.cpu.mem exampleLayout.osNext = exampleLayout.tcb u := by
  have hzero : load32 (fun _ => 0) exampleLayout.osCurr = 0 := by decide
  obtain ⟨m, hm, hstarted, hcurr, -⟩ := exampleLayout.exists_setUp [false, true] fun _ => 0
  have hinv := (exampleCore_init m).inv hstarted (hcurr.trans hzero)
  obtain ⟨c₁, c₂, hwork, hswitch, hbasic, hinv₂, hcurr₂, hmask, -, hcurr₁, hpre, hresumes⟩ :=
    hinv.exists_switch (t := false) rfl rfl (by simp)
  have hnone : c₁.preempt false = none := by
    have hne : c₁.curr ≠ some false := by
      rw [hcurr₁]
      simp [exampleCore]
    rw [preempt_of_ne hne, hpre]
    rfl
  have hsp : c₂.cpu.sp = exampleLayout.top false :=
    congrArg Context.sp (hresumes.first hnone)
  have hroom : exampleLayout.HasRoom c₂.curr c₂.cpu.sp 0x88 := by
    rw [hcurr₂, hsp]
    decide
  have hfp := hinv₂.works_fp hroom u fun _ => 1
  exact ⟨m, c₁, c₂, _, hm, hwork, hswitch, .work hfp, hbasic, hinv₂.works hfp, hcurr₂, rfl, hmask,
    load32_store32_self _⟩

/-- A thread that uses floating point may be preempted and go on itself. -/
theorem fp_context_preserved_self : ∃ m c₀ es c, exampleLayout.Init m c₀ ∧
    Run (exampleLayout.Step [false, true]) c₀ es c ∧
    es.filterMap Core.Event.target = [false, false] ∧ c.cpu.fpca = true ∧
    Run.EveryStep (exampleLayout.Step [false, true])
      (fun c e => e.Switches fun t => exampleLayout.FpKept c t) c₀ es := by
  have hzero : load32 (fun _ => 0) exampleLayout.osCurr = 0 := by decide
  obtain ⟨m', hm', h⟩ := fp_context_preserved_iff exampleLayout [false, true] hzero
  obtain ⟨m, c₁, c₂, c₃, hm, h₁, h₂, h₃, hbasic, hinv, hcurr, hactive, hmask, hnext⟩ :=
    exists_fp_run false
  obtain rfl : m = m' := Except.ok.inj (hm.symm.trans hm')
  have hmem (t : Bool) : t ∈ [false, true] := by cases t <;> simp
  have h₄ := Step.pendSV (hmem false) hnext hmask
  have hrun := Run.cons h₁ (.cons h₂ (.cons h₃ (.cons h₄ (.nil _))))
  refine ⟨m, _, _, _, exampleCore_init m, hrun, rfl, ?_,
    (h _ _ _ (exampleCore_init m) hrun).mpr ?_⟩
  · exact (congrArg Cpu.fpca (hinv.pendSV_eq (by simp) hnext fun _ => hcurr)).trans hactive
  · rw [Run.everyStep_cons Step.unique h₁, Run.everyStep_cons Step.unique h₂,
      Run.everyStep_cons Step.unique h₃, Run.everyStep_cons Step.unique h₄]
    exact ⟨trivial, fun hf => absurd (hbasic.symm.trans hf) Bool.false_ne_true, trivial,
      fun _ => hcurr, Run.everyStep_nil⟩

/-- A thread that uses floating point is preempted by one that has never run. The handler returns
with the value `0xFFFFFFE9`, which names the extended frame, and the frame on the stack is the basic
one that `OSThread_Start` has set up. -/
theorem fp_format_mismatch : ∃ m c₀ es c c',
    exampleLayout.setUp [false, true] (fun _ => 0) = .ok m ∧
    exampleLayout.Init m c₀ ∧ Run (exampleLayout.Step [false, true]) c₀ es c ∧
    exampleLayout.Step [false, true] c (.pendSV true) c' ∧
    (pendSVExit exampleLayout.osCurr exampleLayout.osNext c.cpu).lr = 0xFFFFFFE9 ∧
    frameExtended (c.preempt true) = false ∧
    ¬Run.EveryStep (exampleLayout.Step [false, true])
      (fun c e => e.Switches fun t => exampleLayout.FpKept c t) c₀ (es ++ [.pendSV true]) := by
  obtain ⟨m, c₁, c₂, c₃, hm, h₁, h₂, h₃, -, hinv, hcurr, hactive, hmask, hnext⟩ :=
    exists_fp_run true
  have hne : c₃.curr ≠ some true := by
    rw [hcurr]
    simp
  have hrun := Run.cons h₁ (.cons h₂ (.cons h₃ (.nil _)))
  refine ⟨m, _, _, c₃, _, hm, exampleCore_init m, hrun, .pendSV (by simp) hnext hmask, ?_,
    hinv.frameExtended_preempted (by simp) hne, fun hall => ?_⟩
  · rw [lr_pendSVExit, hactive]
    rfl
  · have hkept : exampleLayout.FpKept c₃ true := hall _ (.pendSV true) [] c₃ rfl hrun
    exact hne ((hinv.fpKept_iff (by simp) hnext).mp hkept hactive)

end Layout

end LiteRTOS
