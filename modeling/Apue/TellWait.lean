import Apue.Programs
import Mathlib.Data.Int.Notation
import Mathlib.Data.Nat.Notation
import Mathlib.Data.Int.Order.Basic
import Mathlib.Algebra.Group.Nat.Defs

/-!
A parent and a child that take turns with signals. A process that has done its part
sends a signal to the other one and waits for the answer: it tests a flag that the
handler of both signals sets, and suspends itself while the flag is zero. The functions
TELL_WAIT, TELL_PARENT, WAIT_PARENT, TELL_CHILD and WAIT_CHILD are those of tellwait.c;
the two loops increment a counter in a file whose offset the processes share, as in
Ex10_6_procsync. The version with a stream and the one with a descriptor make the same
four calls for an increment.
-/
namespace Apue.Tell

open Programs

/-- The signals that the processes send each other. -/
inductive Signal
  | usr1
  | usr2
  deriving DecidableEq

/-- A set of these signals. -/
abbrev SigSet := Signal → Bool

def emptySet : SigSet := fun _ => false

/-- newmask of TELL_WAIT. -/
def newmask : SigSet := fun _ => true

inductive Role
  | parent
  | child
  deriving DecidableEq

def Role.other : Role → Role
  | parent => child
  | child => parent

/-- TELL_CHILD sends SIGUSR1 and TELL_PARENT sends SIGUSR2. -/
def Role.signal : Role → Signal
  | parent => .usr1
  | child => .usr2

/-- Where a process is: at the head of its loop, in one of the four calls of an
increment, at the kill, or in one of the calls of WAIT_PARENT or WAIT_CHILD. A process
whose read came to the end of the file has `failed`. -/
inductive Pc
  | top
  | seekRead
  | read
  | seekWrite
  | write
  | tell
  | test
  | suspend
  | suspended
  | reset
  | restore
  | done
  | failed
  deriving DecidableEq

/-- A process: `i` is the variable of its loop, `value` the one of the increment, and
`saved` is the mask to which sigsuspend returns. -/
structure Proc where
  pc : Pc
  i : ℕ
  value : ℤ
  sigflag : Bool
  mask : SigSet
  saved : SigSet
  pending : SigSet

/-- An increment of the counter: who made it, what it read and what it wrote. -/
structure Increment where
  who : Role
  old : ℤ
  new : ℤ
  deriving DecidableEq

/-- The processes and the file, as a list of integers with the offset as a position in
it. The log records the increments. -/
structure State where
  proc : Role → Proc
  content : List ℤ
  offset : ℕ
  log : List Increment

/-- The value of an int. -/
def int (v : ℤ) : ℤ := v.bmod (2 ^ 32)

namespace State

/-- After init_file, TELL_WAIT and fork. -/
def initial : State where
  proc := fun _ => ⟨.top, 0, 0, false, newmask, emptySet, emptySet⟩
  content := [0]
  offset := 1
  log := []

def set (s : State) (r : Role) (p : Proc) : State := { s with proc := Function.update s.proc r p }

def go (s : State) (r : Role) (pc : Pc) : State := s.set r { s.proc r with pc := pc }

/-- The loop goes on: the head of the loop in the next round. -/
def next (s : State) (r : Role) : State :=
  s.set r { s.proc r with pc := .top, i := (s.proc r).i + 1 }

def kill (s : State) (r : Role) (sig : Signal) : State :=
  s.set r { s.proc r with pending := Function.update (s.proc r).pending sig true }

/-- The next call of a process. The processes go through the same ones, but the parent
begins a round with the increment and the child with the wait. -/
def step (rounds : ℕ) (oldmask : SigSet) (s : State) (r : Role) : Option State :=
  match (s.proc r).pc with
  | .top =>
    if (s.proc r).i < rounds then
      match r with
      | .parent => some (s.go r .seekRead)
      | .child => some (s.go r .test)
    else some (s.go r .done)
  | .seekRead => some { s.go r .read with offset := 0 }
  | .read =>
    match s.content[s.offset]? with
    | none => some (s.go r .failed)
    | some v => some { s.set r { s.proc r with pc := .seekWrite, value := v } with
        offset := s.offset + 1 }
  | .seekWrite => some { s.go r .write with offset := 0 }
  | .write =>
    some { s.go r .tell with
      content := s.content.take s.offset ++ [int ((s.proc r).value + 1)] ++
        s.content.drop (s.offset + 1)
      offset := s.offset + 1
      log := s.log ++ [⟨r, (s.proc r).value, int ((s.proc r).value + 1)⟩] }
  | .tell =>
    match r with
    | .parent => some ((s.kill r.other r.signal).go r .test)
    | .child => some ((s.kill r.other r.signal).next r)
  | .test => some (s.go r (if (s.proc r).sigflag then .reset else .suspend))
  | .suspend =>
    some (s.set r { s.proc r with pc := .suspended, saved := (s.proc r).mask, mask := emptySet })
  | .suspended => none
  | .reset => some (s.set r { s.proc r with pc := .restore, sigflag := false })
  | .restore =>
    match r with
    | .parent => some ((s.set r { s.proc r with mask := oldmask }).next r)
    | .child => some (s.set r { s.proc r with pc := .seekRead, mask := oldmask })
  | .done => none
  | .failed => none

/-- A signal is delivered: the handler sets the flag. A process in sigsuspend gets its
mask back and goes on. -/
def deliver (s : State) (r : Role) (sig : Signal) : Option State :=
  let p := s.proc r
  if p.pending sig = true ∧ p.mask sig = false ∧ p.pc ≠ .done ∧ p.pc ≠ .failed then
    let p := { p with pending := Function.update p.pending sig false, sigflag := true }
    some (s.set r (if p.pc = .suspended then { p with pc := .test, mask := p.saved } else p))
  else none

end State

/-- What can happen next. -/
inductive Event
  | call (r : Role)
  | deliver (r : Role) (sig : Signal)

def State.move (rounds : ℕ) (oldmask : SigSet) (s : State) : Event → Option State
  | .call r => s.step rounds oldmask r
  | .deliver r sig => s.deliver r sig

/-- The states of all runs with `rounds` rounds of processes whose mask was `oldmask`
before TELL_WAIT. -/
def Reachable (rounds : ℕ) (oldmask : SigSet) (s : State) : Prop :=
  ∃ events, steps (State.move rounds oldmask) events State.initial = some s

end Apue.Tell
