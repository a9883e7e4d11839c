import Apue.Decimal
import Apue.Descriptors
import Apue.Programs

/-!
The library functions popen and pclose. The parent keeps in the array childpid, at the number
of each stream that popen has opened, the process on the other end of it. The child takes the
array over with the rest of the memory and closes these descriptors before it starts the shell.
-/
namespace Apue.Popen

open Programs Descriptors Decimal

/-- What a descriptor may refer to: one of the two ends of a pipe, or anything else. -/
inductive File
  | other (n : ℕ)
  | readEnd (pipe : ℕ)
  | writeEnd (pipe : ℕ)
  deriving DecidableEq

/-- The pipe of an end. -/
def File.pipe : File → Option ℕ
  | other _ => none
  | readEnd p => some p
  | writeEnd p => some p

inductive Call
  | openMax
  | calloc (n : ℕ)
  | pipe
  | fork
  | close (fd : ℤ)
  | dup2 (fd newfd : ℤ)
  | fdopen (fd : ℤ)

/-- A pipe has two descriptors; a call that fails has none, or is false. -/
def Call.Ret : Call → Type
  | openMax => ℕ
  | calloc _ => Bool
  | pipe => Option (ℕ × ℕ)
  | fork => ℤ
  | close _ => Bool
  | dup2 _ _ => ℤ
  | fdopen _ => Bool

abbrev sig : Signature := ⟨Call, Call.Ret⟩

/-- The static variables. -/
structure Statics where
  childpid : Option (ℕ → ℤ)
  maxfd : ℕ

/-- The entry of the array, which is zero where there is no array yet. -/
def Statics.entry (st : Statics) (fd : ℕ) : ℤ :=
  match st.childpid with
  | none => 0
  | some childpid => childpid fd

def STDIN_FILENO : ℕ := 0
def STDOUT_FILENO : ℕ := 1

/-- The characters of the string `type` as C finds them. -/
def typeRefused (type : List Byte) : Bool :=
  (type.getD 0 0 != 114 && type.getD 0 0 != 119) || type.getD 1 0 != 0

/-- `*type == 'r'` -/
def typeReads (type : List Byte) : Bool := type.getD 0 0 == 114

/-- The first time through the array is allocated. -/
def allocate (st : Statics) : Prog sig (Bool × Statics) :=
  match st.childpid with
  | some _ => .ret (true, st)
  | none => do
    let maxfd ← (Prog.call (S := sig) .openMax .ret : Prog sig ℕ)
    let ok ← (Prog.call (S := sig) (.calloc maxfd) .ret : Prog sig Bool)
    if ok then return (true, ⟨some fun _ => 0, maxfd⟩)
    else return (false, ⟨none, maxfd⟩)

def close (fd : ℕ) : Prog sig Unit := .call (.close fd) fun _ => .ret ()

/-- The child's end of the pipe becomes its standard input or output. -/
def takeEnd (mine theirs std : ℕ) : Prog sig Unit := do
  close theirs
  if mine ≠ std then do
    let _ ← (Prog.call (S := sig) (.dup2 mine std) .ret : Prog sig ℤ)
    close mine
  else return ()

/-- Close all descriptors in childpid from `i` on; `left` entries are left. -/
def closeStreams (childpid : ℕ → ℤ) : ℕ → ℕ → Prog sig Unit
  | 0, _ => return ()
  | left + 1, i => do
    (if 0 < childpid i then close i else return () : Prog sig Unit)
    closeStreams childpid left (i + 1)

/-- The child up to execl. -/
def child (type : List Byte) (pfd : ℕ × ℕ) (st : Statics) : Prog sig Unit := do
  if typeReads type then takeEnd pfd.2 pfd.1 STDOUT_FILENO
  else takeEnd pfd.1 pfd.2 STDIN_FILENO
  closeStreams st.entry st.maxfd 0

/-- How popen ends: with NULL, with a stream, or in execl, which does not return. -/
inductive Ended
  | null
  | stream (fd : ℕ)
  | exec
  deriving DecidableEq

/-- The parent makes a stream of its end of the pipe and records the child. -/
def openStream (mine theirs : ℕ) (pid : ℤ) (st : Statics) : Prog sig (Ended × Statics) := do
  close theirs
  let ok ← (Prog.call (S := sig) (.fdopen mine) .ret : Prog sig Bool)
  if ok then return (.stream mine, { st with childpid := some (Function.update st.entry mine pid) })
  else return (.null, st)

/-- popen from fork on. -/
def forked (type : List Byte) (pfd : ℕ × ℕ) (st : Statics) : Prog sig (Ended × Statics) := do
  let pid ← (Prog.call (S := sig) .fork .ret : Prog sig ℤ)
  if pid < 0 then return (.null, st)
  else if pid = 0 then do
    child type pfd st
    return (.exec, st)
  else if typeReads type then openStream pfd.1 pfd.2 pid st
  else openStream pfd.2 pfd.1 pid st

def popen (type : List Byte) (st : Statics) : Prog sig (Ended × Statics) :=
  if typeRefused type then return (.null, st)
  else do
    let (ok, st) ← allocate st
    if ok = false then return (.null, st)
    else
      match ← (Prog.call (S := sig) .pipe .ret : Prog sig (Option (ℕ × ℕ))) with
      | none => return (.null, st)
      | some pfd =>
        if st.maxfd ≤ pfd.1 ∨ st.maxfd ≤ pfd.2 then do
          close pfd.1
          close pfd.2
          return (.null, st)
        else forked type pfd st

/-- pclose up to the wait for the child: whether the stream was one of popen. -/
def pclose (fd : ℕ) (st : Statics) : Prog sig (Bool × Statics) :=
  match st.childpid with
  | none => return (false, st)
  | some childpid =>
    if st.maxfd ≤ fd then return (false, st)
    else if childpid fd = 0 then return (false, st)
    else do
      close fd
      return (true, { st with childpid := some (Function.update childpid fd 0) })

/-- What the calls that may fail answer. The answer of fork says whose run it is. -/
structure Answers where
  openMax : ℕ
  calloc : Bool
  pipe : Bool
  fork : ℤ
  fdopen : Bool

/-- The descriptors of the process, and the number of pipes that have been made so far. -/
structure Kernel where
  fds : Table File
  pipes : ℕ

/-- A new pipe takes the two lowest free descriptors. -/
def Kernel.newPipe (k : Kernel) : Option ((ℕ × ℕ) × Kernel) := do
  let i ← k.fds.lowest
  let fds : Table File := k.fds.set i (some (.readEnd k.pipes))
  let j ← fds.lowest
  return ((i, j), ⟨fds.set j (some (.writeEnd k.pipes)), k.pipes + 1⟩)

def serve (a : Answers) : (c : Call) → Kernel → c.Ret × Kernel
  | .openMax, k => (a.openMax, k)
  | .calloc _, k => (a.calloc, k)
  | .pipe, k =>
    match (if a.pipe then k.newPipe else none) with
    | none => (none, k)
    | some (pfd, k) => (some pfd, k)
  | .fork, k => (a.fork, k)
  | .close fd, k => ((k.fds.close fd).1, { k with fds := (k.fds.close fd).2 })
  | .dup2 fd newfd, k => ((k.fds.dup2 fd newfd).1, { k with fds := (k.fds.dup2 fd newfd).2 })
  | .fdopen _, k => (a.fdopen, k)

end Apue.Popen
