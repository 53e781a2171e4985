import LiteRTOS.Library.Run
import LiteRTOS.Mcal.Gpio
import Mathlib.Logic.Function.Basic

/-!
# Calls on port C from several contexts

A call such as `PC3_On` takes four steps: it sets the flag `port_c_lock`, loads `GPIOC_ODR`, stores
it and clears the flag. SysTick may be taken between any two steps of a thread. Its handler makes
calls of its own, runs to its end, and may be left to another thread than the one it interrupted.
Since the old value of the flag is thrown away, nothing keeps a second context out.

A store that finds `GPIOC_ODR` as it was loaded changes one bit only. When all stores do, each pin
has the level of the last call that has stored to it. This is the level of the last completed call,
up to a call that has stored and not yet cleared the flag.

## Main definitions

* `CallPhase`, `Caller`: a context between two steps of a call.
* `PortSys`, `PortEvent`, `PortSys.next`: the contexts on one core.
* `PortSys.Undisturbed`: a store finds the register as it was loaded.
* `PortSys.LevelsOk`: every pin has the level of the last completed call on it.

## Main results

* `PortSys.four_steps`: the steps of a call without interruption are `PinCall.exec`.
* `levels_of_undisturbed`: the levels in a run of undisturbed stores.
* `pc3On_lost`: a run in which a store is disturbed.
-/

namespace LiteRTOS

/-- How far a call has got. -/
inductive CallPhase
  | idle
  | acquired
  | loaded (v : BitVec 32)
  | stored
  deriving DecidableEq

/-- A context: the calls it has still to make, and how far the first of them has got. -/
structure Caller where
  phase : CallPhase
  todo : List PinCall

/-- The call that the context has stored and not yet completed. -/
def Caller.pendingStore : Caller → List PinCall
  | ⟨.stored, call :: _⟩ => [call]
  | _ => []

theorem Caller.pendingStore_of_idle {x : Caller} (h : x.phase = .idle) : x.pendingStore = [] := by
  rcases x with ⟨phase, calls⟩
  obtain rfl : phase = .idle := h
  rfl

/-- Threads named by `τ` and the handler of SysTick, which is the context `none`. -/
structure PortSys (τ : Type) where
  port : PortC
  caller : Option τ → Caller
  running : τ
  inHandler : Bool
  /-- The completed calls, the last one first. -/
  completed : List PinCall

/-- What happens next. -/
inductive PortEvent (τ : Type)
  /-- The active context takes its next step. -/
  | step
  /-- SysTick is taken, and its handler is going to make the given calls. -/
  | sysTick (calls : List PinCall)
  /-- The handler returns, to the given thread. -/
  | exitHandler (next : τ)

namespace PortSys

variable {τ : Type} [DecidableEq τ]

/-- The context that has the processor. -/
def active (s : PortSys τ) : Option τ := if s.inHandler then none else some s.running

/-- The context `c` is now at `x`. -/
def setCaller (s : PortSys τ) (c : Option τ) (x : Caller) : PortSys τ :=
  { s with caller := Function.update s.caller c x }

/-- The state after an event, if it may take place. The context `driver p` is the one that drives
the pin `p`. -/
def next (driver : Pin → Option τ) (s : PortSys τ) : PortEvent τ → Option (PortSys τ)
  | .step =>
    match s.caller s.active with
    | ⟨_, []⟩ => none
    | ⟨.idle, calls⟩ =>
      some { s.setCaller s.active ⟨.acquired, calls⟩ with port := s.port.acquirePortResource }
    | ⟨.acquired, calls⟩ => some (s.setCaller s.active ⟨.loaded s.port.odr, calls⟩)
    | ⟨.loaded v, call :: calls⟩ =>
      some { s.setCaller s.active ⟨.stored, call :: calls⟩ with
        port := { s.port with odr := call.update v } }
    | ⟨.stored, call :: calls⟩ =>
      some { s.setCaller s.active ⟨.idle, calls⟩ with
        port := s.port.releasePortResource, completed := call :: s.completed }
  | .sysTick calls =>
    if s.inHandler = false ∧ ∀ call ∈ calls, driver call.pin = none then
      some { s.setCaller none ⟨.idle, calls⟩ with inHandler := true }
    else none
  | .exitHandler next =>
    if s.inHandler = true ∧ (s.caller none).todo = [] then
      some { s with inHandler := false, running := next }
    else none

/-- The transition relation. -/
def Step (driver : Pin → Option τ) (s : PortSys τ) (e : PortEvent τ) (s' : PortSys τ) : Prop :=
  s.next driver e = some s'

theorem exists_run_of_any {driver : Pin → Option τ} {P : PortSys τ → Bool} {s : PortSys τ}
    {es : List (PortEvent τ)} (h : (Run.eval (next driver) s es).any P = true) :
    ∃ s', Run (Step driver) s es s' ∧ P s' = true :=
  Run.exists_of_any (fun _ _ _ => id) h

theorem everyStep_of_check {driver : Pin → Option τ} {C : PortSys τ → PortEvent τ → Bool}
    {s : PortSys τ} {es : List (PortEvent τ)} (h : Run.check (next driver) C s es = true) :
    Run.EveryStep (Step driver) (fun s e => C s e = true) s es :=
  Run.everyStep_of_check (fun _ _ _ => id) h

/-- The threads have their programs before them, and the handler is not active. -/
def init (odr : BitVec 32) (programs : τ → List PinCall) (running : τ) : PortSys τ where
  port := { odr := odr }
  caller c := ⟨.idle, c.elim [] programs⟩
  running := running
  inHandler := false
  completed := []

/-- No call is in progress. -/
def NoCall (s : PortSys τ) : Prop := ∀ c, (s.caller c).phase = .idle

/-- The level of a pin after the calls `l`, the last one first. -/
def lastLevel (odr : BitVec 32) (l : List PinCall) (p : Pin) : Bool :=
  ((l.find? (·.pin = p)).map (·.level)).getD (odr.getLsbD p.bit)

/-- Every pin has the level of the last completed call on it, and all other bits have their initial
values. -/
def LevelsOk (odr : BitVec 32) (s : PortSys τ) : Prop :=
  (∀ p : Pin, s.port.odr.getLsbD p.bit = lastLevel odr s.completed p) ∧
    ∀ i, (∀ p : Pin, i ≠ p.bit) → s.port.odr.getLsbD i = odr.getLsbD i

/-- A store finds `GPIOC_ODR` as it was loaded. -/
def Undisturbed (s : PortSys τ) (e : PortEvent τ) : Prop :=
  ∀ v, e = .step → (s.caller s.active).phase = .loaded v → s.port.odr = v

/-! ### The moves of the active context -/

variable {driver : Pin → Option τ} {odr : BitVec 32} {s s' : PortSys τ}

/-- The four steps of a call. -/
inductive Moves (s : PortSys τ) : PortSys τ → Prop
  | acquire {call : PinCall} {calls : List PinCall}
      (hc : s.caller s.active = ⟨.idle, call :: calls⟩) :
      Moves s { s.setCaller s.active ⟨.acquired, call :: calls⟩ with
        port := s.port.acquirePortResource }
  | load {call : PinCall} {calls : List PinCall}
      (hc : s.caller s.active = ⟨.acquired, call :: calls⟩) :
      Moves s (s.setCaller s.active ⟨.loaded s.port.odr, call :: calls⟩)
  | store {v : BitVec 32} {call : PinCall} {calls : List PinCall}
      (hc : s.caller s.active = ⟨.loaded v, call :: calls⟩) :
      Moves s { s.setCaller s.active ⟨.stored, call :: calls⟩ with
        port := { s.port with odr := call.update v } }
  | release {call : PinCall} {calls : List PinCall}
      (hc : s.caller s.active = ⟨.stored, call :: calls⟩) :
      Moves s { s.setCaller s.active ⟨.idle, calls⟩ with
        port := s.port.releasePortResource, completed := call :: s.completed }

theorem moves_of_next (h : s.next driver .step = some s') : s.Moves s' := by
  rcases hc : s.caller s.active with ⟨phase, _ | ⟨call, calls⟩⟩
  · simp [next, hc] at h
  · cases phase <;> simp only [next, hc, Option.some.injEq] at h <;> subst h
    · exact .acquire hc
    · exact .load hc
    · exact .store hc
    · exact .release hc

omit [DecidableEq τ] in
theorem inHandler_of_active (h : s.active = none) : s.inHandler = true := by
  rw [active] at h
  split_ifs at h with hin
  exact hin

theorem next_of_moves (h : s.Moves s') : s.next driver .step = some s' := by
  cases h with
  | acquire hc | load hc | store hc | release hc => simp [next, hc]

/-- A context that is left alone for four steps makes the call. -/
theorem four_steps {call : PinCall} {calls : List PinCall}
    (hc : s.caller s.active = ⟨.idle, call :: calls⟩) :
    ∃ s', Run (Step driver) s [.step, .step, .step, .step] s' ∧ s'.port = call.exec s.port ∧
      s'.completed = call :: s.completed :=
  ⟨_, .cons (next_of_moves (.acquire hc)) (.cons (next_of_moves (.load (Function.update_self ..)))
    (.cons (next_of_moves (.store (Function.update_self ..)))
      (.cons (next_of_moves (.release (Function.update_self ..))) (.nil _)))), rfl, rfl⟩

/-! ### The invariant -/

/-- The levels of the pins are those of the calls that have stored, each call changes its own pin
only, and the handler has no call to make unless it is active. -/
structure Inv (driver : Pin → Option τ) (odr : BitVec 32) (s : PortSys τ) : Prop where
  owned : ∀ c, ∀ call ∈ (s.caller c).todo, driver call.pin = c
  quiet : s.inHandler = false → (s.caller none).todo = []
  idle : ∀ c, (s.caller c).todo = [] → (s.caller c).phase = .idle
  pins : ∀ p, s.port.odr.getLsbD p.bit =
    lastLevel odr ((s.caller (driver p)).pendingStore ++ s.completed) p
  others : ∀ i, (∀ p : Pin, i ≠ p.bit) → s.port.odr.getLsbD i = odr.getLsbD i

theorem lastLevel_insert_of_ne {call : PinCall} {p : Pin} (h : call.pin ≠ p) (l m : List PinCall) :
    lastLevel odr (l ++ call :: m) p = lastLevel odr (l ++ m) p := by
  simp [lastLevel, List.find?_append, h]

theorem lastLevel_cons_self (call : PinCall) (l : List PinCall) :
    lastLevel odr (call :: l) call.pin = call.level := by
  simp [lastLevel]

theorem setCaller_apply (c d : Option τ) (x : Caller) :
    (s.setCaller c x).caller d = if d = c then x else s.caller d :=
  Function.update_apply ..

section SetCaller

variable (h : s.Inv driver odr)

include h

theorem Inv.setCaller_owned {calls : List PinCall} (hcalls : calls ⊆ (s.caller s.active).todo)
    (phase : CallPhase) : ∀ c, ∀ call ∈ ((s.setCaller s.active ⟨phase, calls⟩).caller c).todo,
      driver call.pin = c := by
  intro c call hcall
  rw [setCaller_apply] at hcall
  split_ifs at hcall with hc
  · exact h.owned c call (hc ▸ hcalls hcall)
  · exact h.owned c call hcall

theorem Inv.setCaller_quiet (x : Caller) :
    s.inHandler = false → ((s.setCaller s.active x).caller none).todo = [] := by
  intro hin
  rw [setCaller_apply, if_neg]
  · exact h.quiet hin
  · exact fun hactive => Bool.false_ne_true (hin.symm.trans (inHandler_of_active hactive.symm))

theorem Inv.setCaller_idle {x : Caller} (hx : x.todo = [] → x.phase = .idle) :
    ∀ c, ((s.setCaller s.active x).caller c).todo = [] →
      ((s.setCaller s.active x).caller c).phase = .idle := by
  intro c hc
  rw [setCaller_apply] at hc ⊢
  split_ifs at hc ⊢ with hactive
  · exact hx hc
  · exact h.idle c hc

/-- A context moves on without a store and without a completed call. -/
theorem Inv.setCaller (phase : CallPhase) {calls : List PinCall}
    (hcalls : calls ⊆ (s.caller s.active).todo) (hne : calls ≠ [])
    (hstore : Caller.pendingStore ⟨phase, calls⟩ = (s.caller s.active).pendingStore) :
    (s.setCaller s.active ⟨phase, calls⟩).Inv driver odr where
  owned := h.setCaller_owned hcalls phase
  quiet := h.setCaller_quiet _
  idle := h.setCaller_idle fun hnil => absurd hnil hne
  pins p := by
    refine (h.pins p).trans ?_
    rw [setCaller_apply]
    split_ifs with hp
    · rw [hstore, hp]
      rfl
    · rfl
  others := h.others

end SetCaller

theorem Inv.moves (h : s.Inv driver odr) (hm : s.Moves s') (hundisturbed : s.Undisturbed .step) :
    s'.Inv driver odr := by
  cases hm with
  | acquire hc =>
    have h' := h.setCaller .acquired (by rw [hc]; exact List.Subset.refl _) (by simp)
      (by rw [hc]; rfl)
    exact ⟨h'.owned, h'.quiet, h'.idle, h'.pins, h'.others⟩
  | load hc =>
    exact h.setCaller _ (by rw [hc]; exact List.Subset.refl _) (by simp) (by rw [hc]; rfl)
  | @store v call calls hc =>
    -- the register is as it was loaded, so that the store changes the bit of the pin only
    have hv : s.port.odr = v := hundisturbed v rfl (by rw [hc])
    have howner : driver call.pin = s.active :=
      h.owned _ call (by rw [hc]; exact List.mem_cons_self)
    have hcalls : call :: calls ⊆ (s.caller s.active).todo := by rw [hc]; exact List.Subset.refl _
    have hown := h.setCaller_owned hcalls
    refine ⟨hown .stored, h.setCaller_quiet _, h.setCaller_idle (by simp), fun p => ?_,
      fun i hi => ?_⟩
    · change (call.update v).getLsbD p.bit = _
      rw [PinCall.getLsbD_update, setCaller_apply, ← hv]
      by_cases hp : p = call.pin
      · rw [if_pos (congrArg Pin.bit hp), if_pos (hp ▸ howner), hp]
        exact (lastLevel_cons_self call s.completed).symm
      · rw [if_neg fun hbit => hp (Pin.bit_injective hbit), h.pins p]
        split_ifs with hdriver
        · rw [hdriver, hc]
          exact (lastLevel_insert_of_ne (Ne.symm hp) [] _).symm
        · rfl
    · change (call.update v).getLsbD i = _
      rw [PinCall.getLsbD_update, if_neg (hi call.pin), ← hv, h.others i hi]
  | @release call calls hc =>
    have howner : driver call.pin = s.active :=
      h.owned _ call (by rw [hc]; exact List.mem_cons_self)
    have hcalls : calls ⊆ (s.caller s.active).todo := by rw [hc]; exact List.subset_cons_self _ _
    have hown := h.setCaller_owned hcalls
    refine ⟨hown .idle, h.setCaller_quiet _, h.setCaller_idle fun _ => rfl, fun p => ?_, h.others⟩
    change s.port.odr.getLsbD p.bit = _
    rw [h.pins p, setCaller_apply]
    split_ifs with hdriver
    · rw [hdriver, hc]
      rfl
    · have hne : call.pin ≠ p := fun hp => hdriver (hp ▸ howner)
      exact (lastLevel_insert_of_ne hne _ _).symm

/-- Every event keeps the invariant, if it is no disturbed store. -/
theorem Inv.next (h : s.Inv driver odr) {e : PortEvent τ} (hs : Step driver s e s')
    (hundisturbed : s.Undisturbed e) : s'.Inv driver odr := by
  cases e with
  | step => exact h.moves (moves_of_next hs) hundisturbed
  | sysTick calls =>
    simp only [Step, PortSys.next] at hs
    split_ifs at hs with hcond
    obtain rfl := Option.some.inj hs
    obtain ⟨hin, hcalls⟩ := hcond
    have hstore := Caller.pendingStore_of_idle (h.idle none (h.quiet hin))
    refine ⟨fun c call hcall => ?_, fun hin' => absurd hin' (by simp), fun c hc => ?_, fun p => ?_,
      h.others⟩
    · change call ∈ ((s.setCaller none _).caller c).todo at hcall
      rw [setCaller_apply] at hcall
      split_ifs at hcall with hc
      · exact hc ▸ hcalls call hcall
      · exact h.owned c call hcall
    · change ((s.setCaller none _).caller c).todo = [] at hc
      change ((s.setCaller none _).caller c).phase = _
      rw [setCaller_apply] at hc ⊢
      split_ifs at hc ⊢
      · rfl
      · exact h.idle c hc
    · change s.port.odr.getLsbD p.bit = lastLevel odr
        (((s.setCaller none _).caller (driver p)).pendingStore ++ s.completed) p
      rw [h.pins p, setCaller_apply]
      split_ifs with hp
      · rw [hp, hstore]
        rfl
      · rfl
  | exitHandler next =>
    simp only [Step, PortSys.next] at hs
    split_ifs at hs with hcond
    obtain rfl := Option.some.inj hs
    exact ⟨h.owned, fun _ => hcond.2, h.idle, h.pins, h.others⟩

omit [DecidableEq τ] in
theorem inv_init {programs : τ → List PinCall} {running : τ}
    (hprograms : ∀ t, ∀ call ∈ programs t, driver call.pin = some t) :
    (init odr programs running).Inv driver odr where
  owned c call hcall := by
    rcases c with _ | t
    · cases hcall
    · exact hprograms t call hcall
  quiet _ := rfl
  idle _ _ := rfl
  pins _ := rfl
  others _ _ := rfl

omit [DecidableEq τ] in
theorem Inv.levelsOk (h : s.Inv driver odr) (hs : s.NoCall) : s.LevelsOk odr := by
  refine ⟨fun p => ?_, h.others⟩
  rw [h.pins p, Caller.pendingStore_of_idle (hs (driver p))]
  rfl

end PortSys

open PortSys

/-- **The levels of the pins.** Let every pin be driven by one context, a thread or the handler of
SysTick, and let the contexts run in any order that one core allows. If every store finds
`GPIOC_ODR` as the call has loaded it, then in every state in which no call is in progress each
pin has the level of the last completed call on it, and all other bits have their initial
values. -/
theorem levels_of_undisturbed {τ : Type} [DecidableEq τ] {driver : Pin → Option τ}
    {odr : BitVec 32} {programs : τ → List PinCall} {running : τ}
    (hprograms : ∀ t, ∀ call ∈ programs t, driver call.pin = some t) {es : List (PortEvent τ)}
    {s : PortSys τ} (hr : Run (Step driver) (init odr programs running) es s)
    (hundisturbed : Run.EveryStep (Step driver) Undisturbed (init odr programs running) es) :
    Run.Everywhere (Step driver) (fun s => s.NoCall → s.LevelsOk odr)
      (init odr programs running) es := by
  refine Run.everywhere_of_everyStep (I := fun s => s.Inv driver odr) (E := fun _ => True)
    (fun _ _ _ _ h h' => Option.some.inj (h.symm.trans h')) (fun _ => Inv.levelsOk) ?_ hr
    (fun _ _ => trivial) hundisturbed (inv_init hprograms)
  exact fun _ _ _ _ h hC hs => h.next hs hC

/-! ### A thread on PC3 and the idle thread on PC10 -/

/-- The handler drives PC2, the thread `false` PC3 and the idle thread `true` PC10. -/
def exampleDriver : Pin → Option Bool
  | .pc2 => none
  | .pc3 => some false
  | .pc10 => some true

/-- Each thread switches its pin on once, and the idle thread runs first. -/
def exampleInit : PortSys Bool :=
  .init 0 (fun idle => if idle then [⟨.pc10, true⟩] else [⟨.pc3, true⟩]) true

/-- SysTick is taken and left to the thread `t`. -/
def tickTo (t : Bool) : List (PortEvent Bool) :=
  .sysTick [⟨.pc2, true⟩, ⟨.pc2, false⟩] :: .replicate 8 .step ++ [.exitHandler t]

theorem noCall_iff (s : PortSys Bool) : s.NoCall ↔ (s.caller none).phase = .idle ∧
    (s.caller (some false)).phase = .idle ∧ (s.caller (some true)).phase = .idle := by
  simp [NoCall, Option.forall]

instance (s : PortSys Bool) : Decidable s.NoCall := decidable_of_iff' _ (noCall_iff s)

theorem exampleInit_driver (t : Bool) : ∀ call ∈
    (fun idle : Bool => if idle then [⟨.pc10, true⟩] else [(⟨.pc3, true⟩ : PinCall)]) t,
      exampleDriver call.pin = some t := by
  cases t <;> simp [exampleDriver]

/-- The idle thread is interrupted before its load, and the other thread makes its call. -/
theorem levels_of_switch_before_load : ∃ s, Run (Step exampleDriver) exampleInit
      (.step :: tickTo false ++ .replicate 4 .step ++ tickTo true ++ .replicate 3 .step) s ∧
    s.LevelsOk 0 := by
  have hrun : (Run.eval (next exampleDriver) exampleInit
      (.step :: tickTo false ++ .replicate 4 .step ++ tickTo true ++ .replicate 3 .step)).any
      (fun s => decide s.NoCall) = true := by decide +kernel
  have hcheck : Run.check (next exampleDriver) (fun s e => match e, (s.caller s.active).phase with
      | .step, .loaded v => decide (s.port.odr = v)
      | _, _ => true) exampleInit
      (.step :: tickTo false ++ .replicate 4 .step ++ tickTo true ++ .replicate 3 .step) =
      true := by decide +kernel
  obtain ⟨s, hr, h⟩ := exists_run_of_any hrun
  refine ⟨s, hr, levels_of_undisturbed exampleInit_driver hr ?_ _ [] s (List.append_nil _).symm hr
    (of_decide_eq_true h)⟩
  intro es₁ e es₂ s' hes hr' v he hphase
  have hC := everyStep_of_check hcheck es₁ e es₂ s' hes hr'
  simpa [he, hphase] using hC

/-- The idle thread is interrupted between its load and its store, and the other thread makes its
call: the store puts PC3 back to the level it had before. -/
theorem pc3On_lost : ∃ s, Run (Step exampleDriver) exampleInit
      (.replicate 2 .step ++ tickTo false ++ .replicate 4 .step ++ tickTo true ++
        .replicate 2 .step) s ∧
    s.NoCall ∧ ¬s.LevelsOk 0 ∧ s.port.odr.getLsbD 3 = false ∧
    s.completed =
      [⟨.pc10, true⟩, ⟨.pc2, false⟩, ⟨.pc2, true⟩, ⟨.pc3, true⟩, ⟨.pc2, false⟩, ⟨.pc2, true⟩] := by
  have hrun : (Run.eval (next exampleDriver) exampleInit
      (.replicate 2 .step ++ tickTo false ++ .replicate 4 .step ++ tickTo true ++
        .replicate 2 .step)).any
      (fun s => decide (s.NoCall ∧ s.port.odr.getLsbD 3 = false ∧ s.completed =
        [⟨.pc10, true⟩, ⟨.pc2, false⟩, ⟨.pc2, true⟩, ⟨.pc3, true⟩, ⟨.pc2, false⟩,
          ⟨.pc2, true⟩])) = true := by decide +kernel
  obtain ⟨s, hr, h⟩ := exists_run_of_any hrun
  obtain ⟨hidle, hbit, hcompleted⟩ := of_decide_eq_true h
  refine ⟨s, hr, hidle, fun hok => ?_, hbit, hcompleted⟩
  have hlevel := hok.1 .pc3
  rw [hcompleted] at hlevel
  exact Bool.false_ne_true (hbit.symm.trans hlevel)

end LiteRTOS
