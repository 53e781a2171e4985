import LiteRTOS.Core.StackFill
import LiteRTOS.Library.Simulation
import LiteRTOS.Machine.Functions

/-!
# The functions on memory simulate the functions on the kernel state

A memory represents a kernel state when every scalar variable holds the value of its component
(`Image.Holds`), where a control block stands for its address. A function of
`LiteRTOS.Machine.Functions` then fails exactly as the one of `LiteRTOS.OS.Kernel` does, and
otherwise ends in a memory that represents the state in which that one ends. It writes the
kernel's variables and nothing else: the stacks and the saved stack pointers are framed.

Every function is a sequence of writes to single variables. `Image.Keeps.write` is the rule for
one write, and the rules of `LiteRTOS.Library.Simulation` put the writes together.

## Main definitions

* `Image.Points`, `Image.Holds`, `Image.Represents`: the representation of a kernel state.
* `Image.kernelVars`: the variables that the functions of the kernel may write.
* `Image.Keeps`: what two corresponding pieces of code do.

## Main results

* `Image.osSched_keeps`, `Image.osMsDelay_keeps`, `Image.osTick_keeps`, `Image.osRun_keeps`,
  `Image.register_keeps`, `Image.sysTickHandler_keeps`: the simulation of each function.
* `Image.exists_stackPrepared`: the memory in which `OSThread_Start` ends.
-/

namespace LiteRTOS

open ByteMemory

namespace Image

variable {ι : Type*} (V : Image ι)

/-! ### The representation of a kernel state -/

/-- The address `w` is the pointer `p`. -/
def Points (p : Option TcbPtr) (w : BitVec 32) : Prop :=
  ∃ o : Option ι, p = o.map V.ptr ∧ w = o.elim 0 V.tcb

/-- The variable `x` has the value of its component of `k`. The saved stack pointers are no part
of the kernel state. -/
def Holds (k : Kernel) (m : ByteMemory) : Var ι → Prop
  | .osCurr => V.Points k.osCurr (load32 m (V.var .osCurr))
  | .osNext => V.Points k.osNext (load32 m (V.var .osNext))
  | .osThread i => V.Points (k.osThread i) (load32 m (V.var (.osThread i)))
  | .osReadySet => load32 m (V.var .osReadySet) = k.osReadySet
  | .osDelayedSet => load32 m (V.var .osDelayedSet) = k.osDelayedSet
  | .millisecLow => load32 m (V.var .millisecLow) = k.millisecCounter.extractLsb' 0 32
  | .millisecHigh => load32 m (V.var .millisecHigh) = k.millisecCounter.extractLsb' 32 32
  | .sp _ => True
  | .prio t => load8 m (V.var (.prio t)) = (k.tcb (V.ptr t)).prio
  | .timeOut t => load32 m (V.var (.timeOut t)) = (k.tcb (V.ptr t)).timeOut

/-- The memory and the System Control Space represent the kernel state. -/
structure Represents (s : Mcu) (k : Kernel) : Prop where
  holds : ∀ x, V.Holds k s.mem x
  scs : s.scs = k.scs

/-- The variables that the functions of the kernel may write. `OS_Curr` is written by
`PendSV_Handler` only. -/
def kernelVars : Set (Var ι) := {x | x ≠ .osCurr ∧ ∀ t, x ≠ .sp t}

/-- From `k` and `s` two pieces of code come to `k'` and `s'`: the memory still represents the
kernel state, and nothing but the kernel's variables has changed. -/
structure Keeps (k : Kernel) (s : Mcu) (k' : Kernel) (s' : Mcu) : Prop where
  represents : V.Represents s' k'
  frame : V.vars.Frame kernelVars s.mem s'.mem
  primask : s.primask = k.primask → s'.primask = k'.primask
  portC : s.portC = k.portC → s'.portC = k'.portC

variable {V} {k k' k'' : Kernel} {s s' s'' : Mcu} {m m' : ByteMemory} {p p' : Option TcbPtr}
  {w w' : BitVec 32} {t : ι}

theorem points_none : V.Points none 0 := ⟨none, rfl, rfl⟩

theorem points_some (t : ι) : V.Points (some (V.ptr t)) (V.tcb t) := ⟨some t, rfl, rfl⟩

/-- Pointers are equal when their addresses are. -/
theorem Points.eq_iff (h : V.Points p w) (h' : V.Points p' w') : p = p' ↔ w = w' := by
  obtain ⟨o, rfl, rfl⟩ := h
  obtain ⟨o', rfl, rfl⟩ := h'
  rcases o with _ | t <;> rcases o' with _ | u
  · simp
  · simpa using (V.tcb_ne u).symm
  · simpa using V.tcb_ne t
  · simp [V.ptr_injective.eq_iff, V.tcb_injective.eq_iff]

theorem Points.deref (h : V.Points p w) : Except.Rel
    (fun t a => ∃ u, t = V.ptr u ∧ a = V.tcb u) (deref p) (derefAddr w) := by
  obtain ⟨o, rfl, rfl⟩ := h
  rcases o with _ | u
  · exact .error _
  · rw [derefAddr, Option.elim_some, if_neg (V.tcb_ne u)]
    exact .ok ⟨u, rfl, rfl⟩

/-- A variable whose bytes do not change holds what it held. -/
theorem Holds.of_sameOn {x : Var ι} (h : V.Holds k m x) (hx : SameOn (V.var x) x.width m m') :
    V.Holds k m' x := by
  cases x with
  | sp t => trivial
  | prio t =>
    have hbyte : load8 m' (V.var (.prio t)) = load8 m (V.var (.prio t)) :=
      hx _ (by rw [BitVec.sub_self]; exact Nat.one_pos)
    exact hbyte.trans h
  | _ =>
    have hword := SameOn.load32_eq hx
    simp only [Holds, hword] at h ⊢
    exact h

namespace Represents

variable (h : V.Represents s k)

include h

theorem osCurr : V.Points k.osCurr (s.load (V.var .osCurr)) := h.holds .osCurr

theorem osNext : V.Points k.osNext (s.load (V.var .osNext)) := h.holds .osNext

theorem osReadySet : s.load (V.var .osReadySet) = k.osReadySet := h.holds .osReadySet

theorem osDelayedSet : s.load (V.var .osDelayedSet) = k.osDelayedSet := h.holds .osDelayedSet

theorem prio (t : ι) : s.loadByte (V.tcb t + 4) = (k.tcb (V.ptr t)).prio := h.holds (.prio t)

theorem timeOut (t : ι) : s.load (V.tcb t + 8) = (k.tcb (V.ptr t)).timeOut := h.holds (.timeOut t)

theorem gptGetTimeElapsed : V.gptGetTimeElapsed s = k.millisecCounter := by
  have hlow : s.load (V.var .millisecLow) = _ := h.holds .millisecLow
  have hhigh : s.load (V.var .millisecHigh) = _ := h.holds .millisecHigh
  rw [Image.gptGetTimeElapsed, hlow, hhigh]
  refine BitVec.eq_of_getLsbD_eq fun i hi => ?_
  rw [BitVec.getLsbD_append, BitVec.getLsbD_extractLsb', BitVec.getLsbD_extractLsb']
  by_cases hlt : i < 32
  · simp [hlt]
  · simp [hlt, show i - 32 < 32 by omega, show 32 + (i - 32) = i by omega]

theorem threadAt (i : ℕ) : Except.Rel V.Points (k.threadAt i) (V.threadAt s i) := by
  rw [Kernel.threadAt, Image.threadAt]
  split_ifs with hi
  · exact .ok (h.holds (.osThread ⟨i, hi⟩))
  · exact .error _

end Represents

namespace Keeps

theorem refl (h : V.Represents s k) : V.Keeps k s k s := ⟨h, .refl, id, id⟩

theorem trans (h : V.Keeps k s k' s') (h' : V.Keeps k' s' k'' s'') : V.Keeps k s k'' s'' where
  represents := h'.represents
  frame := h.frame.trans h'.frame
  primask := h'.primask ∘ h.primask
  portC := h'.portC ∘ h.portC

theorem rel (h : V.Keeps k s k' s') {x : Except Fault Kernel} {y : Except Fault Mcu}
    (hxy : Except.Rel (V.Keeps k' s') x y) : Except.Rel (V.Keeps k s) x y :=
  hxy.mono fun _ _ => h.trans

theorem disableIrq (h : V.Represents s k) : V.Keeps k s k.disableIrq s.disableIrq :=
  ⟨⟨h.holds, h.scs⟩, .refl, fun _ => rfl, id⟩

theorem enableIrq (h : V.Represents s k) : V.Keeps k s k.enableIrq s.enableIrq :=
  ⟨⟨h.holds, h.scs⟩, .refl, fun _ => rfl, id⟩

/-- A write to the pins of port C. -/
theorem drive (h : V.Represents s k) (f : PortC → PortC) :
    V.Keeps k s { k with portC := f k.portC } { s with portC := f s.portC } :=
  ⟨⟨h.holds, h.scs⟩, .refl, id, congrArg f⟩

/-- A write to the variables `W`. -/
theorem writeAll {W : Set (Var ι)} (h : V.Represents s k) (hW : ∀ x ∈ W, x ∈ kernelVars)
    (hframe : V.vars.Frame W s.mem m') (hnew : ∀ x ∈ W, V.Holds k' m' x)
    (hold : ∀ y, y ∉ W → ∀ m, V.Holds k m y → V.Holds k' m y)
    (hk : k'.scs = k.scs ∧ k'.primask = k.primask ∧ k'.portC = k.portC) :
    V.Keeps k s k' { s with mem := m' } where
  represents :=
    { holds := fun y => by
        by_cases hy : y ∈ W
        · exact hnew y hy
        · exact (hold y hy _ (h.holds y)).of_sameOn (hframe.sameOn hy)
      scs := h.scs.trans hk.1.symm }
  frame := hframe.mono hW
  primask hp := hp.trans hk.2.1.symm
  portC hp := hp.trans hk.2.2.symm

/-- A write to the variable `x`. -/
theorem write {x : Var ι} (h : V.Represents s k) (hx : x ∈ kernelVars)
    (hframe : V.vars.Frame {x} s.mem m') (hnew : V.Holds k' m' x)
    (hold : ∀ y, y ≠ x → ∀ m, V.Holds k m y → V.Holds k' m y)
    (hk : k'.scs = k.scs ∧ k'.primask = k.primask ∧ k'.portC = k.portC) :
    V.Keeps k s k' { s with mem := m' } :=
  writeAll h (by simpa using hx) hframe (by simpa using hnew) hold hk

theorem osNext (h : V.Represents s k) (hp : V.Points p w) :
    V.Keeps k s { k with osNext := p } (s.store (V.var .osNext) w) := by
  refine write (x := .osNext) h (by simp [kernelVars]) (V.frame_store32 rfl w) ?_ ?_
    ⟨rfl, rfl, rfl⟩
  · rw [Holds, load32_store32_self]
    exact hp
  · intro y hy m hm
    cases y <;> first | exact hm | exact absurd rfl hy

theorem osReadySet (h : V.Represents s k) {v : BitVec 32} (hw : w = v) :
    V.Keeps k s { k with osReadySet := v } (s.store (V.var .osReadySet) w) := by
  refine write (x := .osReadySet) h (by simp [kernelVars]) (V.frame_store32 rfl w)
    ((load32_store32_self w).trans hw) ?_ ⟨rfl, rfl, rfl⟩
  intro y hy m hm
  cases y <;> first | exact hm | exact absurd rfl hy

theorem osDelayedSet (h : V.Represents s k) {v : BitVec 32} (hw : w = v) :
    V.Keeps k s { k with osDelayedSet := v } (s.store (V.var .osDelayedSet) w) := by
  refine write (x := .osDelayedSet) h (by simp [kernelVars]) (V.frame_store32 rfl w)
    ((load32_store32_self w).trans hw) ?_ ⟨rfl, rfl, rfl⟩
  intro y hy m hm
  cases y <;> first | exact hm | exact absurd rfl hy

theorem osThread (h : V.Represents s k) {i : ℕ} (hi : i < 33) (hp : V.Points p w) :
    V.Keeps k s { k with osThread := Function.update k.osThread ⟨i, hi⟩ p }
      (s.store (V.addr .osThread + BitVec.ofNat 32 (4 * i)) w) := by
  rw [V.var_osThread hi]
  refine write (x := .osThread ⟨i, hi⟩) h (by simp [kernelVars]) (V.frame_store32 rfl w) ?_ ?_
    ⟨rfl, rfl, rfl⟩
  · simp only [Holds, Function.update_self, load32_store32_self]
    exact hp
  · intro y hy m hm
    cases y with
    | osThread j =>
      have hj : j ≠ ⟨i, hi⟩ := fun h => hy (h ▸ rfl)
      simpa only [Holds, Function.update_of_ne hj] using hm
    | _ => exact hm

theorem setTimeOut (h : V.Represents s k) (t : ι) {v : BitVec 32} (hw : w = v) :
    V.Keeps k s (k.setTimeOut (V.ptr t) v) (s.store (V.tcb t + 8) w) := by
  rw [V.var_timeOut]
  refine write (x := .timeOut t) h (by simp [kernelVars]) (V.frame_store32 rfl w) ?_ ?_
    ⟨rfl, rfl, rfl⟩
  · simp [Holds, Kernel.setTimeOut, hw]
  · intro y hy m hm
    cases y with
    | timeOut u =>
      have hu : V.ptr u ≠ V.ptr t := fun h => hy (V.ptr_injective h ▸ rfl)
      simpa only [Holds, Kernel.setTimeOut, Function.update_of_ne hu] using hm
    | prio u =>
      refine hm.trans ?_
      simp only [Kernel.setTimeOut, Function.update_apply]
      split_ifs with hu
      · rw [hu]
      · rfl
    | _ => exact hm

theorem setPrio (h : V.Represents s k) (t : ι) (v : BitVec 8) :
    V.Keeps k s (k.setPrio (V.ptr t) v) (s.storeByte (V.tcb t + 4) v) := by
  rw [V.var_prio]
  refine write (x := .prio t) h (by simp [kernelVars]) (V.frame_store8 rfl v) ?_ ?_
    ⟨rfl, rfl, rfl⟩
  · simp [Holds, Kernel.setPrio, load8, store8]
  · intro y hy m hm
    cases y with
    | prio u =>
      have hu : V.ptr u ≠ V.ptr t := fun h => hy (V.ptr_injective h ▸ rfl)
      simpa only [Holds, Kernel.setPrio, Function.update_of_ne hu] using hm
    | timeOut u =>
      refine hm.trans ?_
      simp only [Kernel.setPrio, Function.update_apply]
      split_ifs with hu
      · rw [hu]
      · rfl
    | _ => exact hm

/-- The two words of the counter are written one after the other. -/
theorem setMillisec (h : V.Represents s k) {u v : BitVec 64} (hu : u = v) :
    V.Keeps k s { k with millisecCounter := v } (V.setMillisec u s) := by
  subst hu
  have hhigh : V.vars.Frame {.millisecHigh} (s.store (V.var .millisecLow) (u.extractLsb' 0 32)).mem
      (V.setMillisec u s).mem := V.frame_store32 rfl _
  have hlow : load32 (V.setMillisec u s).mem (V.var .millisecLow) = u.extractLsb' 0 32 :=
    (hhigh.load32_eq (by simp) rfl).trans (load32_store32_self _)
  have hframe : V.vars.Frame {.millisecLow, .millisecHigh} s.mem (V.setMillisec u s).mem :=
    ((V.frame_store32 rfl _).mono (by simp)).trans (hhigh.mono (by simp))
  refine writeAll h (by simp [kernelVars]) hframe ?_ ?_ ⟨rfl, rfl, rfl⟩
  · rintro x (rfl | rfl)
    · exact hlow
    · exact load32_store32_self _
  · intro y hy m hm
    cases y <;> first | exact hm | exact absurd (by simp) hy

end Keeps

/-! ### The functions -/

/-- The end of `OS_Sched`, with the selected thread `p`. -/
theorem pend_keeps (h : V.Represents s k) (hpw : V.Points p w) : Except.Rel (V.Keeps k s)
    (if p ≠ k.osCurr then
      (pure { k with osNext := p, scs := setPendSV k.scs } : Except Fault Kernel) else pure k)
    (if w ≠ s.load (V.var .osCurr) then
      pure { s.store (V.var .osNext) w with scs := setPendSV s.scs } else pure s) := by
  have heq := hpw.eq_iff h.osCurr
  by_cases hp : p = k.osCurr
  · rw [if_neg (not_not.mpr hp), if_neg (not_not.mpr (heq.mp hp))]
    exact .ok (.refl h)
  · rw [if_pos hp, if_pos (mt heq.mpr hp)]
    obtain ⟨hrep, hframe, hprimask, hport⟩ := Keeps.osNext h hpw
    exact .ok ⟨⟨hrep.holds, congrArg setPendSV h.scs⟩, hframe, hprimask, hport⟩

/-- `OS_Sched`. -/
theorem osSched_keeps (h : V.Represents s k) :
    Except.Rel (V.Keeps k s) (LiteRTOS.osSched k) (V.osSched s) := by
  rw [LiteRTOS.osSched, Image.osSched, h.osReadySet]
  split_ifs with hzero
  · exact (h.threadAt 0).bind fun _ _ => pend_keeps h
  · rw [log2_eq hzero, ok_bind, ok_bind]
    exact (h.threadAt _).bind fun _ _ => pend_keeps h

/-- `OS_msDelay`. -/
theorem osMsDelay_keeps (h : V.Represents s k) (ticks : BitVec 32) :
    Except.Rel (V.Keeps k s) (LiteRTOS.osMsDelay ticks k) (V.osMsDelay ticks s) := by
  have h₁ := Keeps.disableIrq h
  refine h₁.rel (h₁.represents.osCurr.deref.bind ?_)
  rintro _ _ ⟨t, rfl, rfl⟩
  have h₂ := Keeps.setTimeOut h₁.represents t (rfl : ticks = ticks)
  have hprio := h₂.represents.prio t
  refine h₂.rel (Except.Rel.bind (R := Eq) (hprio ▸ .refl _) ?_)
  rintro bit _ rfl
  have h₃ := Keeps.osReadySet h₂.represents
    (congrArg (· &&& ~~~bit) h₂.represents.osReadySet)
  have h₄ := Keeps.osDelayedSet h₃.represents
    (congrArg (· ||| bit) h₃.represents.osDelayedSet)
  refine (h₃.trans h₄).rel ((osSched_keeps h₄.represents).bind fun k₅ s₅ h₅ => ?_)
  exact .ok (h₅.trans (.enableIrq h₅.represents))

/-- The bits of an expired thread are moved from one set to the other. -/
theorem expire_keeps (h : V.Represents s k) (t : ι) (bit : BitVec 32) : V.Keeps k s
    (if (k.tcb (V.ptr t)).timeOut = 0 then
      { k with osReadySet := k.osReadySet ||| bit, osDelayedSet := k.osDelayedSet &&& ~~~bit }
      else k)
    (if s.load (V.tcb t + 8) = 0 then
      let s := s.store (V.var .osReadySet) (s.load (V.var .osReadySet) ||| bit)
      s.store (V.var .osDelayedSet) (s.load (V.var .osDelayedSet) &&& ~~~bit)
      else s) := by
  rw [h.timeOut]
  split_ifs
  · have h₁ := Keeps.osReadySet h (congrArg (· ||| bit) h.osReadySet)
    exact h₁.trans (.osDelayedSet h₁.represents
      (congrArg (· &&& ~~~bit) h₁.represents.osDelayedSet))
  · exact .refl h

/-- The loop of `OS_Tick`, by induction on the iterations that are left. -/
theorem osTickLoop_keeps (h : V.Represents s k) (fuel : ℕ) (pending : BitVec 32) :
    Except.Rel (V.Keeps k s) (LiteRTOS.osTickLoop fuel pending k)
      (V.osTickLoop fuel pending s) := by
  induction fuel generalizing pending k s with
  | zero =>
    rw [LiteRTOS.osTickLoop, Image.osTickLoop]
    split_ifs
    · exact .ok (.refl h)
    · exact .error _
  | succ fuel ih =>
    rw [LiteRTOS.osTickLoop, Image.osTickLoop]
    split_ifs
    · exact .ok (.refl h)
    refine Except.Rel.bind (R := Eq) (.refl (log2 pending)) ?_
    rintro index _ rfl
    refine (h.threadAt _).bind fun p w hpw => hpw.deref.bind ?_
    rintro _ _ ⟨t, rfl, rfl⟩
    refine Except.Rel.bind (R := Eq) (h.prio t ▸ .refl _) ?_
    rintro bit _ rfl
    have h₁ := Keeps.setTimeOut h t (congrArg (· - 1) (h.timeOut t))
    have h₂ := h₁.trans (expire_keeps h₁.represents t bit)
    exact h₂.rel (ih h₂.represents (pending &&& ~~~bit))

/-- `OS_Tick`. -/
theorem osTick_keeps (h : V.Represents s k) :
    Except.Rel (V.Keeps k s) (LiteRTOS.osTick k) (V.osTick s) := by
  rw [Image.osTick, h.osDelayedSet]
  exact osTickLoop_keeps h 32 k.osDelayedSet

/-- `OS_Run`. -/
theorem osRun_keeps (h : V.Represents s k) :
    Except.Rel (V.Keeps k s) (LiteRTOS.osRun k) (V.osRun s) := by
  have h₁ : V.Keeps k s (osOnStartup k)
      { s with scs := nvicSetPriority sysTickIRQn 0 s.scs } :=
    ⟨⟨h.holds, congrArg (nvicSetPriority sysTickIRQn 0) h.scs⟩, .refl, id, id⟩
  have h₂ := h₁.trans (.disableIrq h₁.represents)
  refine h₂.rel ((osSched_keeps h₂.represents).bind fun _ _ h₃ => ?_)
  exact .ok (h₃.trans (.enableIrq h₃.represents))

/-- `SysTick_Handler`. -/
theorem sysTickHandler_keeps (h : V.Represents s k) :
    Except.Rel (V.Keeps k s) (LiteRTOS.sysTickHandler k) (V.sysTickHandler s) := by
  have h₁ := Keeps.drive h pc2On
  have h₂ := h₁.trans (.setMillisec h₁.represents
    (congrArg (· + 1) h₁.represents.gptGetTimeElapsed))
  refine h₂.rel ((osTick_keeps h₂.represents).bind fun k₃ s₃ h₃ => h₃.rel ?_)
  have h₄ := Keeps.disableIrq h₃.represents
  refine h₄.rel ((osSched_keeps h₄.represents).bind fun k₅ s₅ h₅ => ?_)
  have h₆ := h₅.trans (.enableIrq h₅.represents)
  exact .ok (h₆.trans (.drive h₆.represents pc2Off))

/-- The registration of a thread. -/
theorem register_keeps (h : V.Represents s k) (t : ι) (prio : BitVec 8) :
    Except.Rel (V.Keeps k s) (LiteRTOS.osThreadStart (V.ptr t) prio k)
      (V.register t prio s) := by
  rw [LiteRTOS.osThreadStart, Image.register]
  split_ifs with hlt hpos
  · have h₁ := Keeps.osThread h hlt (points_some t)
    have h₂ := h₁.trans (.setPrio h₁.represents t prio)
    refine h₂.rel (Except.Rel.bind (R := Eq) (.refl (threadBit prio)) ?_)
    rintro bit _ rfl
    exact .ok (.osReadySet h₂.represents (congrArg (· ||| bit) h₂.represents.osReadySet))
  · have h₁ := Keeps.osThread h hlt (points_some t)
    exact .ok (h₁.trans (.setPrio h₁.represents t prio))
  · exact .error _

/-- The part of `OSThread_Start` before the registration always ends. It writes to the stack of
the thread and to the stack pointer in its control block. -/
theorem exists_start (h : V.Represents s k) (t : ι) : ∃ m', V.threads.start t s.mem = .ok m' ∧
    V.Represents { s with mem := m' } k ∧ V.threads.Started m' t ∧
    ∀ b n, BlocksApart (V.addr (.stack (some t))) (V.stkSize (some t)).toNat b n →
      BlocksApart (V.tcb t) 4 b n → SameOn b n s.mem m' := by
  obtain ⟨m', hm', htcb, hwords, hsame⟩ := exists_osThreadStartStack (V.handler t)
    (V.stack_pos t) (V.stack_end t) (V.stack_room t) (V.threads.stack_tcb (some t) t) s.mem
  refine ⟨m', hm', ⟨fun x => ?_, h.scs⟩, ⟨htcb, unstack_of_initialWords rfl hwords⟩, hsame⟩
  by_cases hx : x = .sp t
  · subst hx
    trivial
  · have hsp : BlocksApart (V.var (.sp t)) 4 (V.var x) x.width :=
      V.vars.apart (.sp t) x (Ne.symm hx)
    rw [V.var_sp] at hsp
    exact (h.holds x).of_sameOn (hsame _ _ (V.stack_var _ x) hsp)

/-- The objects that `OSThread_Start` writes to do not overlap. -/
theorem startApart (t : ι) : StartApart (V.addr .osThread) (V.addr .osReadySet) (V.tcb t)
    (V.addr (.stack (some t))) (V.stkSize (some t)) where
  thread_readySet := V.apart .osThread .osReadySet (by simp)
  thread_tcb := V.apart .osThread (.tcb t) (by simp)
  readySet_tcb := V.apart .osReadySet (.tcb t) (by simp)
  stack_thread := V.apart (.stack (some t)) .osThread (by simp)
  stack_readySet := V.apart (.stack (some t)) .osReadySet (by simp)
  stack_tcb := V.apart (.stack (some t)) (.tcb t) (by simp)

theorem register_eq (t : ι) (prio : BitVec 8) (s : Mcu) : V.register t prio s =
    (osThreadStartRegister (V.addr .osThread) (V.var .osReadySet) (V.tcb t) prio s.mem).map
      fun m => { s with mem := m } := by
  rw [register, osThreadStartRegister]
  split_ifs
  · cases threadBit prio <;> rfl
  · rfl
  · rfl

theorem osThreadStart_eq_memory (t : ι) (prio : BitVec 8) (s : Mcu) : V.osThreadStart t prio s =
    (osThreadStartMemory (V.addr .osThread) (V.var .osReadySet) (V.tcb t) prio (V.handler t)
      (V.addr (.stack (some t))) (V.stkSize (some t)) s.mem).map fun m => { s with mem := m } := by
  have hstart : V.threads.start t s.mem = osThreadStartStack (V.tcb t) (V.handler t)
    (V.addr (.stack (some t))) (V.stkSize (some t)) s.mem := rfl
  rw [osThreadStart, osThreadStartMemory, hstart]
  rcases osThreadStartStack (V.tcb t) (V.handler t) (V.addr (.stack (some t)))
    (V.stkSize (some t)) s.mem with e | m
  · rfl
  · exact register_eq t prio { s with mem := m }

/-- `OSThread_Start` prepares the stack of the thread in its storage, registers the thread and
writes nothing else. -/
theorem exists_stackPrepared (t : ι) {prio : BitVec 8} (hprio : prio.toNat ≤ 32) (s : Mcu) :
    ∃ m, V.osThreadStart t prio s = .ok { s with mem := m } ∧
      StackPrepared (V.addr .osThread) (V.addr .osReadySet) (V.tcb t) prio (V.handler t)
        (V.addr (.stack (some t))) (V.stkSize (some t)) s.mem m := by
  have htop : _ = _ := toNat_stackTop (V.stack_end t)
  have hend := V.stack_end t
  have hroom := V.stack_room t
  obtain ⟨m, hm, hprepared⟩ := exists_osThreadStartMemory (V.handler t) hprio (V.stack_pos t) hend
    (by omega) s.mem
  have hready : V.var .osReadySet = V.addr .osReadySet := BitVec.add_zero _
  refine ⟨m, ?_, hprepared (startApart t) hroom⟩
  rw [osThreadStart_eq_memory, hready, hm]
  rfl

/-- Memory in which the variables are zero represents the state before `main`. -/
theorem represents_reset (hm : ∀ x, SameOn (V.var x) x.width (fun _ => 0) s.mem)
    (hscs : s.scs = fun _ => 0) : V.Represents s Kernel.reset where
  holds x := by
    have hzero (a : BitVec 32) : load32 (fun _ => 0) a = 0 := by rw [load32]; decide
    refine Holds.of_sameOn ?_ (hm x)
    cases x <;> simp only [Holds, hzero] <;> first | exact points_none | rfl
  scs := hscs

/-! ### Sequences of calls -/

/-- A call of a function of the kernel. -/
inductive Call (ι : Type*)
  | threadStart (t : ι) (prio : BitVec 8)
  | sched
  | msDelay (ticks : BitVec 32)
  | tick
  | run
  | sysTick

variable (V) in
/-- A call on the kernel state. -/
def Call.onKernel : Call ι → Kernel → Except Fault Kernel
  | .threadStart t prio => LiteRTOS.osThreadStart (V.ptr t) prio
  | .sched => LiteRTOS.osSched
  | .msDelay ticks => LiteRTOS.osMsDelay ticks
  | .tick => LiteRTOS.osTick
  | .run => LiteRTOS.osRun
  | .sysTick => LiteRTOS.sysTickHandler

variable (V) in
/-- A call on memory. -/
def Call.onMcu : Call ι → Mcu → Except Fault Mcu
  | .threadStart t prio => V.osThreadStart t prio
  | .sched => V.osSched
  | .msDelay ticks => V.osMsDelay ticks
  | .tick => V.osTick
  | .run => V.osRun
  | .sysTick => V.sysTickHandler

variable (V) in
/-- The memory from `m` to `m'` changes in the kernel's variables, and in the stacks and the stack
pointers of the threads in `ts`, only. -/
def FrameWith (ts : Set ι) (m m' : ByteMemory) : Prop :=
  ∀ b n, (∀ x ∈ kernelVars, BlocksApart (V.var x) x.width b n) →
    (∀ t ∈ ts, BlocksApart (V.addr (.stack (some t))) (V.stkSize (some t)).toNat b n ∧
      BlocksApart (V.tcb t) 4 b n) → SameOn b n m m'

/-- From `k` and `s` a sequence of calls comes to `k'` and `s'`: the memory still represents the
kernel state, and nothing but the kernel's variables and what belongs to the threads `ts` has
changed. -/
structure KeepsWith (V : Image ι) (ts : Set ι) (k : Kernel) (s : Mcu) (k' : Kernel) (s' : Mcu) :
    Prop where
  represents : V.Represents s' k'
  frame : V.FrameWith ts s.mem s'.mem
  primask : s.primask = k.primask → s'.primask = k'.primask
  portC : s.portC = k.portC → s'.portC = k'.portC

theorem Keeps.keepsWith {ts : Set ι} (h : V.Keeps k s k' s') : V.KeepsWith ts k s k' s' where
  represents := h.represents
  frame _ _ hb _ := h.frame.sameOn_of_apart hb
  primask := h.primask
  portC := h.portC

theorem KeepsWith.trans {ts : Set ι} (h : V.KeepsWith ts k s k' s')
    (h' : V.KeepsWith ts k' s' k'' s'') : V.KeepsWith ts k s k'' s'' where
  represents := h'.represents
  frame b n hb hts := (h.frame b n hb hts).trans (h'.frame b n hb hts)
  primask := h'.primask ∘ h.primask
  portC := h'.portC ∘ h.portC

/-- One call. -/
theorem Call.keepsWith (h : V.Represents s k) (c : Call ι) {ts : Set ι}
    (hc : ∀ t prio, c = .threadStart t prio → t ∈ ts) :
    Except.Rel (V.KeepsWith ts k s) (c.onKernel V k) (c.onMcu V s) := by
  cases c with
  | threadStart t prio =>
    obtain ⟨m', hm', hrep, -, hsame⟩ := exists_start h t
    have hstart : V.KeepsWith ts k s k { s with mem := m' } :=
      ⟨hrep, fun b n _ hts => hsame b n (hts t (hc t prio rfl)).1 (hts t (hc t prio rfl)).2, id, id⟩
    rw [onMcu, Image.osThreadStart, hm', ok_bind]
    exact (register_keeps hrep t prio).mono fun _ _ h => hstart.trans h.keepsWith
  | sched => exact (osSched_keeps h).mono fun _ _ => Keeps.keepsWith
  | msDelay ticks => exact (osMsDelay_keeps h ticks).mono fun _ _ => Keeps.keepsWith
  | tick => exact (osTick_keeps h).mono fun _ _ => Keeps.keepsWith
  | run => exact (osRun_keeps h).mono fun _ _ => Keeps.keepsWith
  | sysTick => exact (sysTickHandler_keeps h).mono fun _ _ => Keeps.keepsWith

/-- **The kernel state is what the kernel is in memory.** In a memory that represents a kernel
state, any sequence of calls of the functions of the kernel fails exactly when it fails on the
kernel state, with the same undefined behaviour. Otherwise it ends in a memory that represents the
state in which it ends there, and no byte has changed but those of the kernel's variables and those
of the stacks and the stack pointers of the threads that were started. -/
theorem calls_simulate (h : V.Represents s k) (calls : List (Call ι)) :
    Except.Rel (V.KeepsWith {t | ∃ prio, .threadStart t prio ∈ calls} k s)
      (calls.foldlM (fun k c => c.onKernel V k) k) (calls.foldlM (fun s c => c.onMcu V s) s) := by
  refine Except.Rel.foldlM (fun c hc k' s' h' => ?_) (Keeps.refl h).keepsWith
  refine (c.keepsWith h'.represents ?_).mono fun _ _ => h'.trans
  rintro t prio rfl
  exact ⟨prio, hc⟩

/-- Two threads are started, the scheduler runs, and SysTick is taken. -/
def exampleCalls : List (Call (Fin 3)) := [.threadStart 1 3, .threadStart 2 2, .run, .sysTick]

/-- The calls in zeroed memory. -/
theorem calls_simulate_two : ∃ (k' : Kernel) (s' : Mcu),
    exampleCalls.foldlM (fun k (c : Call (Fin 3)) => c.onKernel exampleImage k) Kernel.reset =
      .ok k' ∧
    exampleCalls.foldlM (fun s (c : Call (Fin 3)) => c.onMcu exampleImage s)
      ⟨fun _ => 0, false, fun _ => 0, ⟨false, 0⟩⟩ = .ok s' ∧ exampleImage.Represents s' k' := by
  have hrep : exampleImage.Represents ⟨fun _ => 0, false, fun _ => 0, ⟨false, 0⟩⟩ Kernel.reset :=
    represents_reset (fun _ => .refl) rfl
  have hok : (exampleCalls.foldlM (fun k (c : Call (Fin 3)) => c.onKernel exampleImage k)
      Kernel.reset).toOption.isSome = true := by decide +kernel
  obtain ⟨k', hk'⟩ := Option.isSome_iff_exists.mp hok
  have hrel := calls_simulate hrep exampleCalls
  rw [toOption_eq_some.mp hk'] at hrel
  obtain ⟨s', hs', h⟩ := hrel.exists_of_ok
  exact ⟨k', s', toOption_eq_some.mp hk', hs', h.represents⟩

end Image

end LiteRTOS
