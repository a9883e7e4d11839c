import Apue.PoolQueue
import Apue.Programs

/-!
The worker pool: main hands out jobs, and every worker waits for its own ones.
The queue is protected by a read-write lock, and each worker has a mutex and a
condition variable of its own. Each lock, unlock, wait and signal is a step, and
so is each piece of code between two of them. On SIGINT main signals every worker
once and joins them one after the other.
-/
namespace Apue.Pool

open DoublyLinked

/-- Where main is. The new job `jp` goes to the front of the queue or to its end. -/
inductive Main
  | ready
  | wrlock (front : Bool) (jp : ℕ)
  | link (front : Bool) (jp : ℕ)
  | wrunlock (jp : ℕ)
  | signal (jp : ℕ)
  | pause
  | stopLock (i : ℕ)
  | stopSignal (i : ℕ)
  | stopUnlock (i : ℕ)
  | join (i : ℕ)
  deriving DecidableEq

/-- Where a worker is. It is `blocked` in pthread_cond_wait as long as no wake-up
is pending for it, and `woken` until it has its mutex back. -/
inductive Worker
  | test
  | lock
  | rdlock
  | search (pJob : Option ℕ)
  | rdunlock (pJob : Option ℕ)
  | wait
  | blocked
  | woken
  | retest
  | wrlock (pJob : ℕ)
  | remove (pJob : ℕ)
  | wrunlock (pJob : ℕ)
  | unlock (pJob : Option ℕ)
  | run (pJob : ℕ)
  | exited
  deriving DecidableEq

/-- The holder of a lock. -/
inductive Thread
  | main
  | worker (v : ℕ)
  deriving DecidableEq

structure State where
  q : Queue
  writer : Option Thread
  readers : List ℕ
  owner : ℕ → Option Thread
  gracefulStop : Bool
  main : Main
  worker : ℕ → Worker

def start : State := ⟨emptyQueue, none, [], fun _ => none, false, .ready, fun _ => .test⟩

/-- The step that is taken. `submit` is a call of job_insert or job_append with
memory that malloc returned, and `spurious` a wake-up without a signal. The job
may have been freed before main signals the worker, in which case anything may be
found in its place. -/
inductive Event
  | submit (front : Bool) (jp : ℕ) (job : Job)
  | wrlock (front : Bool) (jp : ℕ)
  | link (front : Bool) (jp : ℕ)
  | wrunlock (jp : ℕ)
  | signal (jp v : ℕ)
  | pause
  | sigint
  | stopLock (i : ℕ)
  | stopSignal (i : ℕ)
  | stopUnlock (i : ℕ)
  | join (i : ℕ)
  | test (v : ℕ)
  | lock (v : ℕ)
  | rdlock (v : ℕ)
  | search (v : ℕ) (pJob : Option ℕ)
  | rdunlock (v : ℕ) (pJob : Option ℕ)
  | wait (v : ℕ)
  | spurious (v : ℕ)
  | relock (v : ℕ)
  | retest (v : ℕ)
  | jobWrlock (v pJob : ℕ)
  | remove (v pJob : ℕ)
  | jobWrunlock (v pJob : ℕ)
  | unlock (v : ℕ) (pJob : Option ℕ)
  | run (v pJob : ℕ)

namespace State

/-- Worker `v` goes on to `pc`. -/
def go (s : State) (v : ℕ) (pc : Worker) : State := { s with worker := Function.update s.worker v pc }

/-- What pthread_cond_signal on the condition of `v` does. -/
def wake (s : State) (v : ℕ) : State := if s.worker v = .blocked then s.go v .woken else s

/-- What must be true for a step; `n` is the size of the pool. -/
def Enabled (n : ℕ) (s : State) : Event → Prop
  | .submit _ jp job => s.main = .ready ∧ s.q.heap jp = none ∧ job.jWorker < n
  | .wrlock front jp => s.main = .wrlock front jp ∧ s.writer = none ∧ s.readers = []
  | .link front jp => s.main = .link front jp
  | .wrunlock jp => s.main = .wrunlock jp
  | .signal jp v => s.main = .signal jp ∧ (s.q.workerOf jp = some v ∨ s.q.workerOf jp = none)
  | .pause => s.main = .ready
  | .sigint => True
  | .stopLock i => s.main = .stopLock i ∧ s.owner i = none
  | .stopSignal i => s.main = .stopSignal i
  | .stopUnlock i => s.main = .stopUnlock i
  | .join i => s.main = .join i ∧ i < n ∧ s.worker i = .exited
  | .test v => v < n ∧ s.worker v = .test
  | .lock v => v < n ∧ s.worker v = .lock ∧ s.owner v = none
  | .rdlock v => v < n ∧ s.worker v = .rdlock ∧ s.writer = none
  | .search v pJob => v < n ∧ s.worker v = .search pJob
  | .rdunlock v pJob => v < n ∧ s.worker v = .rdunlock pJob
  | .wait v => v < n ∧ s.worker v = .wait
  | .spurious v => v < n ∧ s.worker v = .blocked
  | .relock v => v < n ∧ s.worker v = .woken ∧ s.owner v = none
  | .retest v => v < n ∧ s.worker v = .retest
  | .jobWrlock v pJob => v < n ∧ s.worker v = .wrlock pJob ∧ s.writer = none ∧ s.readers = []
  | .remove v pJob => v < n ∧ s.worker v = .remove pJob
  | .jobWrunlock v pJob => v < n ∧ s.worker v = .wrunlock pJob
  | .unlock v pJob => v < n ∧ s.worker v = .unlock pJob
  | .run v pJob => v < n ∧ s.worker v = .run pJob

instance (n : ℕ) (s : State) (e : Event) : Decidable (s.Enabled n e) := by
  cases e <;> dsimp only [Enabled] <;> infer_instance

/-- After the last worker has been signalled, main joins them. -/
def stopNext (n i : ℕ) : Main := if i < n then .stopLock i else .join 0

/-- What is done in job_insert or job_append under q_lock. -/
def linkJob (front : Bool) (q : Queue) (jp : ℕ) : Option Queue :=
  if front then jobInsert q jp else jobAppend q jp

/-- What a step does. There is no result if it uses memory that is not allocated. -/
def effect (n : ℕ) (s : State) : Event → Option State
  | .submit front jp job => some { s with q := newJob s.q jp job, main := .wrlock front jp }
  | .wrlock front jp => some { s with writer := some .main, main := .link front jp }
  | .link front jp => do
    let q ← linkJob front s.q jp
    return { s with q := q, main := .wrunlock jp }
  | .wrunlock jp => some { s with writer := none, main := .signal jp }
  | .signal _ v => some { s.wake v with main := .ready }
  | .pause => some { s with main := .pause }
  | .sigint => some { s with
      gracefulStop := true
      main := if s.main = .pause then stopNext n 0 else s.main }
  | .stopLock i => some { s with
      owner := Function.update s.owner i (some .main)
      main := .stopSignal i }
  | .stopSignal i => some { s.wake i with main := .stopUnlock i }
  | .stopUnlock i => some { s with
      owner := Function.update s.owner i none
      main := stopNext n (i + 1) }
  | .join i => some { s with main := .join (i + 1) }
  | .test v => some (s.go v (if s.gracefulStop then .exited else .lock))
  | .lock v => some { s.go v .rdlock with
      owner := Function.update s.owner v (some (.worker v)) }
  | .rdlock v => some { s.go v (.search s.q.qHead) with readers := v :: s.readers }
  | .search v pJob =>
    match pJob with
    | none => some (s.go v (.rdunlock none))
    | some jp => do
      let node ← s.q.heap jp
      return s.go v (if node.val.jWorker = v then .rdunlock (some jp) else .search node.next)
  | .rdunlock v pJob => some { s.go v (match pJob with | none => .wait | some jp => .wrlock jp) with
      readers := s.readers.erase v }
  | .wait v => some { s.go v .blocked with owner := Function.update s.owner v none }
  | .spurious v => some (s.go v .woken)
  | .relock v => some { s.go v .retest with
      owner := Function.update s.owner v (some (.worker v)) }
  | .retest v => some (s.go v (if s.gracefulStop then .unlock none else .rdlock))
  | .jobWrlock v pJob => some { s.go v (.remove pJob) with writer := some (.worker v) }
  | .remove v pJob => do
    let q ← jobRemove s.q pJob
    return { s.go v (.wrunlock pJob) with q := q }
  | .jobWrunlock v pJob => some { s.go v (.unlock (some pJob)) with writer := none }
  | .unlock v pJob => some
      { s.go v (match pJob with | none => .test | some jp => .run jp) with
        owner := Function.update s.owner v none }
  | .run v pJob => some { s.go v .test with q := freeJob s.q pJob }

def step (n : ℕ) (s : State) (e : Event) : Option State := if s.Enabled n e then s.effect n e else none

theorem step_eq_some {n : ℕ} {s s' : State} {e : Event} (h : s.step n e = some s') :
    s.Enabled n e ∧ s.effect n e = some s' := by
  rw [step] at h
  split at h
  · exact ⟨by assumption, h⟩
  · cases h

end State

end Apue.Pool
