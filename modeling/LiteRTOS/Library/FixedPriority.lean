import Mathlib.Data.PNat.Basic
import Mathlib.Order.Bounds.Basic

/-!
# A reference scheduler with fixed priorities

The threads of a system are named by their priorities, which are distinct elements of a linear
order. A thread is ready or waits for a number of ticks. The ready thread of the greatest priority
runs, and nothing runs (the idle thread does) when no thread is ready.

There are no bit masks, no pending switches and no counters that wrap around: this is what a
tick-driven preemptive kernel is for, against which an implementation is compared.

## Main definitions

* `FixedPriority.Status`, `FixedPriority.State`: the state of a thread and of a system.
* `FixedPriority.State.IsRunning`: the priority that runs.
* `FixedPriority.Step`: delays of the running thread and ticks.

## Main results

* `FixedPriority.State.initial_concat`: starting one more priority.
-/

namespace FixedPriority

/-- A thread is ready or waits for some more ticks. -/
inductive Status
  | ready
  | waiting (ticks : ℕ+)

/-- One tick: the last one makes a waiting thread ready. -/
def Status.tick : Status → Status
  | .ready => .ready
  | .waiting n => if n = 1 then .ready else .waiting (n - 1)

@[simp] theorem Status.tick_waiting_add_one (n : ℕ+) :
    (Status.waiting (n + 1)).tick = .waiting n := by
  have hn : n + 1 ≠ 1 := (PNat.lt_add_left 1 n).ne'
  rw [tick, if_neg hn, PNat.add_sub]

/-- The status of each started priority. -/
abbrev State (π : Type*) := π → Option Status

/-- What happens to a system. -/
inductive Event
  | delay (ticks : ℕ+)
  | tick

variable {π : Type*}

namespace State

/-- The started priorities are all ready. -/
def initial [DecidableEq π] (ps : List π) : State π := fun p => if p ∈ ps then some .ready else none

/-- The priorities that are ready. -/
def ready (r : State π) : Set π := {p | r p = some .ready}

/-- The priorities that wait. -/
def waiting (r : State π) : Set π := {p | ∃ n, r p = some (.waiting n)}

/-- A tick of all threads. -/
def tick (r : State π) : State π := fun p => (r p).map Status.tick

/-- The priority `p` waits for `n` ticks from now on. -/
def delay [DecidableEq π] (r : State π) (p : π) (n : ℕ+) : State π :=
  Function.update r p (some (.waiting n))

/-- The greatest ready priority runs, or none if no priority is ready. -/
def IsRunning [LinearOrder π] (r : State π) : Option π → Prop
  | some p => IsGreatest r.ready p
  | none => r.ready = ∅

theorem initial_concat [DecidableEq π] (ps : List π) (p : π) :
    initial (ps ++ [p]) = Function.update (initial ps) p (some .ready) := by
  funext q
  by_cases hq : q = p
  · subst hq
    simp [initial]
  · simp [initial, hq]

end State

/-- The running thread delays itself, or a tick takes place. -/
inductive Step [LinearOrder π] : State π → Event → State π → Prop
  | delay {r : State π} {p : π} {n : ℕ+} (h : r.IsRunning (some p)) :
      Step r (.delay n) (r.delay p n)
  | tick {r : State π} : Step r .tick r.tick

end FixedPriority
