import Apue.Programs
import Mathlib.Data.Int.Notation
import Mathlib.Data.Nat.Notation

/-!
A barrier made of a counter, a mutex and a condition variable. The counter says
how many calls are still to come, and the calls wait until it is zero. It is never
set back, so the barrier works for one round only: in a second round the counter
wraps around and no call ever returns.
-/
namespace Apue.Barrier

open Programs

/-- Where a thread is in my_barrier_wait. In pthread_cond_wait it is `blocked` until
a wake-up is pending for it, and `woken` until it has the mutex back. -/
inductive Pc
  | idle
  | lock
  | decrement
  | broadcast
  | unlockSerial
  | test
  | wait
  | blocked
  | woken
  | unlock
  deriving DecidableEq

/-- The barrier, its threads and the number of calls that each of them has made.
`arrivals` and `returns` record the round and the thread of the calls that have
decremented the counter and of those that have returned, with the result. -/
structure State where
  count : UInt32
  owner : Option ℕ
  thread : ℕ → Pc
  round : ℕ → ℕ
  arrivals : List (ℕ × ℕ)
  returns : List (ℕ × ℕ × ℤ)

def EINVAL : ℕ := 22
def MY_BARRIER_SERIAL_THREAD : ℤ := -1

def myBarrierInit (count : UInt32) : Except ℕ State :=
  if count = 0 then .error EINVAL else .ok ⟨count, none, fun _ => .idle, fun _ => 0, [], []⟩

inductive Event
  | call (t : ℕ)
  | lock (t : ℕ)
  | decrement (t : ℕ)
  | broadcast (t : ℕ)
  | unlockSerial (t : ℕ)
  | test (t : ℕ)
  | wait (t : ℕ)
  | spurious (t : ℕ)
  | relock (t : ℕ)
  | unlock (t : ℕ)

namespace State

def go (s : State) (t : ℕ) (pc : Pc) : State := { s with thread := Function.update s.thread t pc }

/-- What must be true for a step; there are `n` threads. -/
def Enabled (n : ℕ) (s : State) : Event → Prop
  | .call t => t < n ∧ s.thread t = .idle
  | .lock t => s.thread t = .lock ∧ s.owner = none
  | .decrement t => s.thread t = .decrement
  | .broadcast t => s.thread t = .broadcast
  | .unlockSerial t => s.thread t = .unlockSerial
  | .test t => s.thread t = .test
  | .wait t => s.thread t = .wait
  | .spurious t => s.thread t = .blocked
  | .relock t => s.thread t = .woken ∧ s.owner = none
  | .unlock t => s.thread t = .unlock

instance (n : ℕ) (s : State) (e : Event) : Decidable (s.Enabled n e) := by
  cases e <;> dsimp only [Enabled] <;> infer_instance

def effect (s : State) : Event → State
  | .call t => { s.go t .lock with round := Function.update s.round t (s.round t + 1) }
  | .lock t => { s.go t .decrement with owner := some t }
  | .decrement t => { s.go t (if s.count - 1 = 0 then .broadcast else .test) with
      count := s.count - 1
      arrivals := s.arrivals ++ [(s.round t, t)] }
  | .broadcast t => { s with
      thread := Function.update (fun u => if s.thread u = .blocked then .woken else s.thread u) t
        .unlockSerial }
  | .unlockSerial t => { s.go t .idle with
      owner := none
      returns := s.returns ++ [(s.round t, t, MY_BARRIER_SERIAL_THREAD)] }
  | .test t => s.go t (if s.count > 0 then .wait else .unlock)
  | .wait t => { s.go t .blocked with owner := none }
  | .spurious t => s.go t .woken
  | .relock t => { s.go t .test with owner := some t }
  | .unlock t => { s.go t .idle with owner := none, returns := s.returns ++ [(s.round t, t, 0)] }

def step (n : ℕ) (s : State) (e : Event) : Option State :=
  if s.Enabled n e then some (s.effect e) else none

/-- The threads whose call of round `r` has arrived. -/
def arrivedIn (s : State) (r : ℕ) : List ℕ := (s.arrivals.filter fun a => a.1 = r).map Prod.snd

/-- The call that thread `t` is in can still return. -/
def CanReturn (n : ℕ) (s : State) (t : ℕ) : Prop :=
  ∃ events s' v, steps (step n) events s = some s' ∧ (s.round t, t, v) ∈ s'.returns

/-- What a barrier for `n` threads should do: no call returns before all `n` calls of
its round have arrived, one of them returns MY_BARRIER_SERIAL_THREAD and the others zero, and
all of them can return once they have arrived. -/
structure Correct (n : ℕ) (s : State) : Prop where
  together : ∀ r t v, (r, t, v) ∈ s.returns → (s.arrivedIn r).length = n
  serial : ∀ r, ∃ t₀ < n, ∀ t v, (r, t, v) ∈ s.returns →
    v = if t = t₀ then MY_BARRIER_SERIAL_THREAD else 0
  live : ∀ t, s.thread t ≠ .idle → (s.arrivedIn (s.round t)).length = n → s.CanReturn n t

end State

end Apue.Barrier
