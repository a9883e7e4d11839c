import Apue.Descriptors
import Apue.Loops

/-!
Two functions mydup2 that do without dup2. After the same tests both close the target and
call dup until it returns the target, since dup takes the lowest free descriptor. The
descriptors that come before it are closed again: the iterative version keeps them on a
stack of its own, the recursive one on the stack of its calls.
-/
namespace Apue.Dup2

open Programs Descriptors

inductive Errno
  | ebadf
  | other
  deriving DecidableEq

inductive Call
  | dup (fd : ℤ)
  | close (fd : ℤ)

/-- A close fails with an error number. -/
def Call.Ret : Call → Type
  | dup _ => ℤ
  | close _ => Option Errno

abbrev sig : Signature := ⟨Call, Call.Ret⟩

def dup (fd : ℤ) : Prog sig ℤ := .call (.dup fd) .ret
def close (fd : ℤ) : Prog sig (Option Errno) := .call (.close fd) .ret

/-- The calls on the table of the process. -/
def serve {F : Type} : (c : Call) → Table F → c.Ret × Table F
  | .dup fd, t => t.dup fd
  | .close fd, t => (if (t.close fd).1 then none else some Errno.ebadf, (t.close fd).2)

/-- `push(sp, tmpfd)` on an array of `size` elements. -/
def push (size : ℤ) (stack : List ℤ) (tmpfd : ℤ) : Prog sig (List ℤ) :=
  if stack.length < size then .ret (tmpfd :: stack) else .abort "push beyond the stack"

/-- The first loop of the iterative version: the stack, or none if dup fails. -/
def fill : ℕ → ℤ → List ℤ → ℤ → Prog sig (Option (List ℤ))
  | 0, _, _, _ => .diverge
  | fuel + 1, newfd, stack, tmpfd => do
    let tmpfd ← dup tmpfd
    if tmpfd = newfd then return some stack
    else if tmpfd = -1 then return none
    else do
      let stack ← push newfd stack tmpfd
      fill fuel newfd stack tmpfd

/-- The second loop, and whether all descriptors could be closed. -/
def unwind : List ℤ → Prog sig Bool
  | [] => return true
  | fd :: stack => do
    match ← close fd with
    | some _ => return false
    | none => unwind stack

/-- The end of the iterative version. -/
def iterate (fuel : ℕ) (fd newfd : ℤ) : Prog sig ℤ := do
  match ← fill fuel newfd [] fd with
  | none => return -1
  | some stack => do
    let closed ← unwind stack
    if closed then return newfd else return -1

def recur : ℕ → ℤ → ℤ → Prog sig ℤ
  | 0, _, _ => .diverge
  | fuel + 1, fd, newfd =>
    if fd = -1 then return -1
    else if fd = newfd then return fd
    else do
      let ret ← dup fd >>= fun fd => recur fuel fd newfd
      match ← close fd with
      | some _ => return -1
      | none => return ret

/-- The part that both versions have in common; `duplicate` is the rest. -/
def mydup2With (duplicate : Prog sig ℤ) (openMax : ℕ) (fd newfd : ℤ) : Prog sig ℤ := do
  let tmpfd ← dup fd
  if tmpfd < 0 then return -1
  else
    match ← close tmpfd with
    | some _ => return -1
    | none =>
      if newfd < 0 ∨ (openMax : ℤ) < newfd then return -1
      else if newfd = fd then return fd
      else
        match ← close newfd with
        | some .other => return -1
        | _ => duplicate

/-- The iterative version. -/
def mydup2 (fuel openMax : ℕ) (fd newfd : ℤ) : Prog sig ℤ :=
  mydup2With (iterate fuel fd newfd) openMax fd newfd

/-- The recursive version. -/
def mydup2Recur (fuel openMax : ℕ) (fd newfd : ℤ) : Prog sig ℤ :=
  mydup2With (dup fd >>= fun fd => recur fuel fd newfd) openMax fd newfd

end Apue.Dup2
