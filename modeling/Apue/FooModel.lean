import Apue.Programs
import Apue.Pointers
import Mathlib.Data.Int.Notation
import Mathlib.Data.Nat.Notation
import Mathlib.Algebra.Group.Int.Defs
import Mathlib.Algebra.GroupWithZero.Nat

/-!
Objects with a reference count in a hash table. Threads allocate objects, find them by
their number, take further references and release them; the release of the last reference
takes the object out of its chain and frees it. In mutex2.c the count has a lock of its
own in the object, and foo_rele gives this lock up to get the lock of the table first; in
mutex3.c the lock of the table protects the count.

A step of a thread goes from one lock to the next. A count is an int, and an overflow of it
wraps around. An access to memory that is not allocated, and a loop that does not end, is a
fault.
-/
namespace Apue.FooTable

open Programs

inductive Version
  | mutex2
  | mutex3
  deriving DecidableEq

def NHASH : ℕ := 29

/-- HASH: the number is converted to an unsigned long. -/
def hash (id : ℤ) : ℕ := (id % 2 ^ 64).toNat % NHASH

/-- What an int has of a number: its 32 low bits, with a sign. -/
def toInt (n : ℤ) : ℤ := n.bmod (2 ^ 32)

/-- An object. Its `serial` tells objects apart that had the same address one after the
other. -/
structure Foo where
  f_count : ℤ
  f_lock : Option ℕ
  f_id : ℤ
  f_next : ℕ
  serial : ℕ

/-- Where a thread is: in foo_alloc, foo_find, foo_hold or foo_rele, before the lock it
takes next. `releWindow` is in foo_rele of mutex2.c without any lock, and in `releFree`
the object has been taken out of its chain. -/
inductive Pc
  | idle
  | alloc (fp : ℕ)
  | allocLinked (fp : ℕ)
  | allocInit (fp : ℕ)
  | find (id : ℤ)
  | findHold (fp : ℕ)
  | hold (fp : ℕ)
  | rele (fp : ℕ)
  | releWindow (fp : ℕ)
  | releHash (fp : ℕ)
  | releFree (fp : ℕ)
  deriving DecidableEq

/-- The memory and the threads. `foo` are the objects by their addresses, of which `live`
lists the ones that are allocated, and `held` has an entry for each reference that a thread
holds. `unlinked` and `freed` record the objects that were taken out of their chains, with
the number of references there were, and those that were freed. -/
structure State where
  foo : ℕ → Option Foo
  live : List ℕ
  fh : ℕ → ℕ
  hashlock : Option ℕ
  thread : ℕ → Pc
  held : List (ℕ × ℕ)
  serials : ℕ
  unlinked : List (ℕ × ℕ)
  freed : List ℕ
  fault : Bool

/-- The calls that a thread can begin; `fp` is the address that malloc returns. A thread
can also give a reference to another thread. -/
inductive Call
  | alloc (fp : ℕ) (id : ℤ)
  | find (id : ℤ)
  | hold (fp : ℕ)
  | rele (fp : ℕ)
  | give (u fp : ℕ)

inductive Event
  | call (t : ℕ) (c : Call)
  | go (t : ℕ)

namespace State

def initial : State := ⟨fun _ => none, [], fun _ => 0, none, fun _ => .idle, [], 0, [], [], false⟩

def go (s : State) (t : ℕ) (pc : Pc) : State := { s with thread := Function.update s.thread t pc }

def setFoo (s : State) (fp : ℕ) (o : Foo) : State := { s with foo := Function.update s.foo fp (some o) }

/-- The number of references to an object. -/
def refs (s : State) (fp : ℕ) : ℕ := s.held.countP fun e => e.2 = fp

/-- The loop of foo_find: the address of the object, or 0. -/
def search (s : State) (id : ℤ) : ℕ → ℕ → Option ℕ
  | 0, _ => none
  | fuel + 1, fp =>
    if fp = 0 then some 0
    else
      match s.foo fp with
      | none => none
      | some o => if o.f_id = id then some fp else s.search id fuel o.f_next

/-- The loop of foo_rele: the object before the one that is removed. -/
def before (s : State) (fp : ℕ) : ℕ → ℕ → Option ℕ
  | 0, _ => none
  | fuel + 1, tfp =>
    match s.foo tfp with
    | none => none
    | some o => if o.f_next = fp then some tfp else s.before fp fuel o.f_next

/-- Remove an object from its chain. -/
def remove (s : State) (fp : ℕ) (o : Foo) : Option State :=
  if s.fh (hash o.f_id) = fp then
    some { s with fh := Function.update s.fh (hash o.f_id) o.f_next }
  else
    match s.before fp s.live.length (s.fh (hash o.f_id)) with
    | none => none
    | some tfp =>
      match s.foo tfp with
      | none => none
      | some p => some (s.setFoo tfp { p with f_next := o.f_next })

def failed (s : State) : State := { s with fault := true }

def begin (s : State) (t : ℕ) : Call → Option State
  | .alloc fp id =>
    if fp ≠ 0 ∧ s.foo fp = none then
      some { (s.setFoo fp ⟨1, none, id, 0, s.serials⟩).go t (.alloc fp) with
        live := fp :: s.live
        held := (t, fp) :: s.held
        serials := s.serials + 1 }
    else none
  | .find id => some (s.go t (.find id))
  | .hold fp => if (t, fp) ∈ s.held then some (s.go t (.hold fp)) else none
  | .rele fp => if (t, fp) ∈ s.held then some (s.go t (.rele fp)) else none
  | .give u fp =>
    if (t, fp) ∈ s.held then some { s with held := (u, fp) :: s.held.erase (t, fp) } else none

/-- A reference is added for a thread. -/
def addRef (s : State) (t fp : ℕ) (o : Foo) : State :=
  { s.setFoo fp { o with f_count := toInt (o.f_count + 1) } with held := (t, fp) :: s.held }

/-- A reference of a thread is given up. -/
def dropRef (s : State) (t fp : ℕ) (o : Foo) : State :=
  { s.setFoo fp { o with f_count := toInt (o.f_count - 1) } with held := s.held.erase (t, fp) }

/-- The object, to which there were `n` references, is taken out of its chain by a thread,
which frees it next. -/
def unlink (s : State) (t fp : ℕ) (o : Foo) (n : ℕ) : State :=
  match s.remove fp o with
  | none => s.failed
  | some s' => { s'.go t (.releFree fp) with
      hashlock := none
      unlinked := (o.serial, n) :: s.unlinked }

/-- The end of foo_find, with the lock of the table. -/
def found (v : Version) (s : State) (t fp : ℕ) : State :=
  if fp = 0 then s.go t .idle
  else
    match v with
    | .mutex2 => { s.go t (.findHold fp) with hashlock := some t }
    | .mutex3 =>
      match s.foo fp with
      | none => s.failed
      | some o => (s.addRef t fp o).go t .idle

/-- The next step of a thread, when it is in one of the calls. In mutex2.c the reference of
the last release is held until the object is freed, in mutex3.c until it is counted down. -/
def next (v : Version) (s : State) (t : ℕ) : Option State :=
  match s.thread t with
  | .idle => none
  | .alloc fp =>
    if s.hashlock = none then
      match s.foo fp with
      | none => some s.failed
      | some o => some { (s.setFoo fp { o with f_next := s.fh (hash o.f_id) }).go t
          (.allocLinked fp) with
          fh := Function.update s.fh (hash o.f_id) fp
          hashlock := some t }
    else none
  | .allocLinked fp =>
    match s.foo fp with
    | none => some s.failed
    | some o =>
      if o.f_lock = none then
        some { (s.setFoo fp { o with f_lock := some t }).go t (.allocInit fp) with hashlock := none }
      else none
  | .allocInit fp =>
    match s.foo fp with
    | none => some s.failed
    | some o => some ((s.setFoo fp { o with f_lock := none }).go t .idle)
  | .find id =>
    if s.hashlock = none then
      match s.search id (s.live.length + 1) (s.fh (hash id)) with
      | none => some s.failed
      | some fp => some (s.found v t fp)
    else none
  | .findHold fp =>
    match s.foo fp with
    | none => some s.failed
    | some o =>
      if o.f_lock = none then some { (s.addRef t fp o).go t .idle with hashlock := none } else none
  | .hold fp =>
    match s.foo fp with
    | none => some s.failed
    | some o =>
      if (match v with | .mutex2 => o.f_lock | .mutex3 => s.hashlock) = none then
        some ((s.addRef t fp o).go t .idle)
      else none
  | .rele fp =>
    match s.foo fp with
    | none => some s.failed
    | some o =>
      match v with
      | .mutex2 =>
        if o.f_lock = none then
          if o.f_count = 1 then some (s.go t (.releWindow fp))
          else some ((s.dropRef t fp o).go t .idle)
        else none
      | .mutex3 =>
        if s.hashlock = none then
          if toInt (o.f_count - 1) = 0 then
            some (((s.dropRef t fp o).go t .idle).unlink t fp o (s.refs fp))
          else some ((s.dropRef t fp o).go t .idle)
        else none
  | .releWindow fp =>
    if s.hashlock = none then some { s.go t (.releHash fp) with hashlock := some t } else none
  | .releHash fp =>
    match s.foo fp with
    | none => some s.failed
    | some o =>
      if o.f_lock = none then
        if o.f_count ≠ 1 then some { (s.dropRef t fp o).go t .idle with hashlock := none }
        else some (s.unlink t fp o (s.refs fp))
      else none
  | .releFree fp =>
    match s.foo fp with
    | none => some s.failed
    | some o =>
      some { s.go t .idle with
        foo := Function.update s.foo fp none
        live := s.live.erase fp
        held := match v with
          | .mutex2 => s.held.erase (t, fp)
          | .mutex3 => s.held
        freed := o.serial :: s.freed }

/-- A step of the program. Nothing happens after a fault. -/
def step (v : Version) (s : State) (e : Event) : Option State :=
  if s.fault then none
  else
    match e with
    | .call t c => if s.thread t = .idle then s.begin t c else none
    | .go t => s.next v t

end State

def Reachable (v : Version) (s : State) : Prop :=
  ∃ events, steps (State.step v) events State.initial = some s

end Apue.FooTable
