import Apue.Programs
import Mathlib.Data.Int.Notation
import Mathlib.Data.Nat.Notation
import Mathlib.Algebra.Group.Nat.Defs

/-!
The semaphores of semaph.c. A semaphore is a System V set of three members: its value, a
counter of the opens that starts at BIGCOUNT and is counted down by each of them, and a
lock. Processes create, open, operate and close the sets in any order, and can exit at any
time; the kernel then applies their adjustments.

Each system call is one step. A semop that cannot be carried out puts the process to sleep,
and a set that is removed keeps its identifier, which is not used again. A call that fails
for a reason which is not modelled ends the process as an exit does.
-/
namespace Apue.Semaph

def BIGCOUNT : ℤ := 10000

/-- The largest value of a member. -/
def SEMVMX : ℤ := 32767

def IPC_PRIVATE : ℤ := 0

structure Sembuf where
  sem_num : ℕ
  sem_op : ℤ
  undo : Bool

def op_lock : List Sembuf := [⟨2, 0, false⟩, ⟨2, 1, true⟩]

def op_endcreate : List Sembuf := [⟨1, -1, true⟩, ⟨2, -1, true⟩]

def op_open : List Sembuf := [⟨1, -1, true⟩]

def op_close : List Sembuf := [⟨2, 0, false⟩, ⟨2, 1, true⟩, ⟨1, 1, true⟩]

def op_unlock : List Sembuf := [⟨2, -1, true⟩]

def op_op (value : ℤ) : List Sembuf := [⟨0, value, true⟩]

/-- A semaphore set: the values of its members, the adjustments for each process, and a
record of the members that sem_create has set, the last one first. -/
structure SemSet where
  val : ℕ → ℤ
  adj : ℕ → ℕ → ℤ
  log : List ℕ

inductive Outcome
  | done (x : SemSet)
  | block
  | range

namespace SemSet

/-- The set that semget creates. -/
def created : SemSet := ⟨fun _ => 0, fun _ _ => 0, []⟩

/-- A value is added to a member, with an adjustment for the process. -/
def add (x : SemSet) (p : ℕ) (o : Sembuf) : SemSet :=
  { x with
    val := Function.update x.val o.sem_num (x.val o.sem_num + o.sem_op)
    adj := if o.undo then
        Function.update x.adj p (Function.update (x.adj p) o.sem_num (x.adj p o.sem_num - o.sem_op))
      else x.adj }

/-- The operations of a semop in their order. None of them counts if one has to wait. -/
def semop (x : SemSet) (p : ℕ) : List Sembuf → Outcome
  | [] => .done x
  | o :: ops =>
    if o.sem_op = 0 then
      if x.val o.sem_num = 0 then x.semop p ops else .block
    else if x.val o.sem_num + o.sem_op < 0 then .block
    else if SEMVMX < x.val o.sem_num + o.sem_op then .range
    else (x.add p o).semop p ops

/-- SETVAL also clears the adjustments of the member for all processes. -/
def setval (x : SemSet) (num : ℕ) (value : ℤ) : SemSet :=
  { val := Function.update x.val num value
    adj := fun p => Function.update (x.adj p) num 0
    log := num :: x.log }

/-- The adjustments of a process that exits. -/
def exit (x : SemSet) (p : ℕ) : SemSet :=
  { x with
    val := fun m => max 0 (min SEMVMX (x.val m + x.adj p m))
    adj := Function.update x.adj p fun _ => 0 }

end SemSet

inductive Errno
  | EINVAL
  | EIDRM
  | ERANGE
  deriving DecidableEq

inductive Fn
  | create
  | openf
  | close
  | op
  deriving DecidableEq

/-- Where a process is: before the system call that it makes next. `asleep` is set while it
waits in a semop. -/
inductive Pc
  | idle
  | create (key initval : ℤ)
  | createLock (key initval : ℤ) (id : ℕ) (asleep : Bool)
  | createRead (initval : ℤ) (id : ℕ)
  | createSet0 (initval : ℤ) (id : ℕ)
  | createSet1 (id : ℕ)
  | createEnd (id : ℕ) (asleep : Bool)
  | openGet (key : ℤ)
  | openCount (id : ℕ) (asleep : Bool)
  | closeLock (id : ℕ) (asleep : Bool)
  | closeRead (id : ℕ)
  | closeRm (id : ℕ)
  | closeUnlock (id : ℕ) (asleep : Bool)
  | op (id : ℕ) (value : ℤ) (asleep : Bool)
  | exited
  | failed (fn : Fn) (errno : Errno)
  deriving DecidableEq

/-- The processes and the sets. `opens` has an entry for each open of a set by a process
that is not closed yet, from the semop that counts the open to the one that counts the
close. -/
structure State where
  key : ℤ → Option ℕ
  set : ℕ → Option SemSet
  sets : ℕ
  proc : ℕ → Pc
  opens : List (ℕ × ℕ)

/-- The functions of the library; a process closes only a set that it has open. -/
inductive Call
  | sem_create (key initval : ℤ)
  | sem_open (key : ℤ)
  | sem_close (id : ℕ)
  | sem_op (id : ℕ) (value : ℤ)

/-- `refuse` is a semget that fails. -/
inductive Event
  | call (p : ℕ) (c : Call)
  | go (p : ℕ)
  | refuse (p : ℕ)
  | exit (p : ℕ)

def Event.process : Event → ℕ
  | .call p _ => p
  | .go p => p
  | .refuse p => p
  | .exit p => p

namespace State

def initial : State := ⟨fun _ => none, fun _ => none, 0, fun _ => .idle, []⟩

def move (s : State) (p : ℕ) (pc : Pc) : State := { s with proc := Function.update s.proc p pc }

/-- A process ends. -/
def exit (s : State) (p : ℕ) (pc : Pc) : State :=
  { s.move p pc with
    set := fun id => (s.set id).map fun x => x.exit p
    opens := s.opens.filter fun e => e.1 ≠ p }

/-- A process goes on after a change of a set. -/
def change (s : State) (p : ℕ) (pc : Pc) (id : ℕ) (x : SemSet) : State :=
  { s.move p pc with set := Function.update s.set id (some x) }

/-- The number of opens of a set. -/
def opened (s : State) (id : ℕ) : ℕ := s.opens.countP fun e => e.2 = id

/-- A key is refused by sem_create and sem_open. -/
def badKey (key : ℤ) : Bool := key = IPC_PRIVATE || key = -1

/-- The conversion of an int to the type of sem_op. -/
def short (value : ℤ) : ℤ := Int.bmod value (2 ^ 16)

instance (o : ℕ × ℕ) (opens : List (ℕ × ℕ)) : Decidable (o ∈ opens) :=
  decidable_of_iff (opens.any (· = o) = true) (by simp)

def begin (s : State) (p : ℕ) : Call → Option State
  | .sem_create key initval => if badKey key then some s else some (s.move p (.create key initval))
  | .sem_open key => if badKey key then some s else some (s.move p (.openGet key))
  | .sem_close id => if (p, id) ∈ s.opens then some (s.move p (.closeLock id false)) else none
  | .sem_op id value =>
    if short value = 0 then some (s.exit p .exited)
    else some (s.move p (.op id (short value) false))

/-- The error of a semop on a set that was removed before or during the call. -/
def gone (asleep : Bool) : Errno := if asleep then .EIDRM else .EINVAL

/-- A semop: `next` is what follows if it is carried out, and `sleep` where the process
waits. -/
def semop (s : State) (p : ℕ) (fn : Fn) (id : ℕ) (asleep : Bool) (ops : List Sembuf) (sleep : Pc)
    (next : SemSet → State) : Option State :=
  match s.set id with
  | none => some (s.exit p (.failed fn (gone asleep)))
  | some x =>
    match x.semop p ops with
    | .done y => some (next y)
    | .block => if asleep then none else some (s.move p sleep)
    | .range => some (s.exit p (.failed fn .ERANGE))

/-- SETVAL in sem_create. -/
def setval (s : State) (p id num : ℕ) (value : ℤ) (pc : Pc) : State :=
  match s.set id with
  | none => s.exit p (.failed .create .EINVAL)
  | some x =>
    if value < 0 ∨ SEMVMX < value then s.exit p (.failed .create .ERANGE)
    else s.change p pc id (x.setval num value)

/-- The semget of sem_create. -/
def semgetCreate (s : State) (p : ℕ) (key initval : ℤ) : State :=
  match s.key key with
  | some id => s.move p (.createLock key initval id false)
  | none => { s.move p (.createLock key initval s.sets false) with
      key := Function.update s.key key (some s.sets)
      set := Function.update s.set s.sets (some .created)
      sets := s.sets + 1 }

/-- IPC_RMID: the key is free again. -/
def rmid (s : State) (p id : ℕ) : State :=
  match s.set id with
  | none => s.exit p (.failed .close .EINVAL)
  | some _ => { s.move p .idle with
      key := fun key => if s.key key = some id then none else s.key key
      set := Function.update s.set id none }

/-- The next system call of a process. -/
def next (s : State) (p : ℕ) : Option State :=
  match s.proc p with
  | .create key initval => some (s.semgetCreate p key initval)
  | .createLock key initval id asleep =>
    if s.set id = none ∧ gone asleep = .EINVAL then some (s.move p (.create key initval))
    else s.semop p .create id asleep op_lock (.createLock key initval id true)
      (s.change p (.createRead initval id) id)
  | .createRead initval id =>
    match s.set id with
    | none => some (s.exit p (.failed .create .EINVAL))
    | some x => some (s.move p (if x.val 1 = 0 then .createSet0 initval id else .createEnd id false))
  | .createSet0 initval id => some (s.setval p id 0 initval (.createSet1 id))
  | .createSet1 id => some (s.setval p id 1 BIGCOUNT (.createEnd id false))
  | .createEnd id asleep =>
    s.semop p .create id asleep op_endcreate (.createEnd id true) fun x =>
      { s.change p .idle id x with opens := (p, id) :: s.opens }
  | .openGet key =>
    match s.key key with
    | none => some (s.move p .idle)
    | some id => some (s.move p (.openCount id false))
  | .openCount id asleep =>
    s.semop p .openf id asleep op_open (.openCount id true) fun x =>
      { s.change p .idle id x with opens := (p, id) :: s.opens }
  | .closeLock id asleep =>
    s.semop p .close id asleep op_close (.closeLock id true) fun x =>
      { s.change p (.closeRead id) id x with opens := s.opens.erase (p, id) }
  | .closeRead id =>
    match s.set id with
    | none => some (s.exit p (.failed .close .EINVAL))
    | some x =>
      if BIGCOUNT < x.val 1 then some (s.exit p .exited)
      else if x.val 1 = BIGCOUNT then some (s.move p (.closeRm id))
      else some (s.move p (.closeUnlock id false))
  | .closeRm id => some (s.rmid p id)
  | .closeUnlock id asleep =>
    s.semop p .close id asleep op_unlock (.closeUnlock id true) (s.change p .idle id)
  | .op id value asleep =>
    s.semop p .op id asleep (op_op value) (.op id value true) (s.change p .idle id)
  | .idle => none
  | .exited => none
  | .failed _ _ => none

def step (s : State) : Event → Option State
  | .call p c => if s.proc p = .idle then s.begin p c else none
  | .go p => s.next p
  | .refuse p =>
    match s.proc p with
    | .create _ _ => some (s.move p .idle)
    | .openGet _ => some (s.move p .idle)
    | _ => none
  | .exit p =>
    match s.proc p with
    | .exited => none
    | .failed _ _ => none
    | _ => some (s.exit p .exited)

end State

end Apue.Semaph
