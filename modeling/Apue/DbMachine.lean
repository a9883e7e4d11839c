import Apue.DbModel
import Apue.Threads

/-!
The processes that use one database. They share the two files and the record
locks on them; each has its own handle and its own file offsets. A lock call
waits while another process holds a conflicting lock on one of the bytes, as
POSIX says for fcntl, and the end of a process releases all its locks.
-/
namespace Apue.Db

open Programs Decimal Threads

/-- The locks held on each byte of each file. -/
abbrev LockTable (P : Type) := P → Fd → ℕ → Option LockType

structure Shared (P : Type) where
  files : Files
  locks : LockTable P

/-- The bytes of a lock; length 0 means to the end of the file, however far. -/
def InRange (start len b : ℕ) : Prop := start ≤ b ∧ (len = 0 ∨ b < start + len)

instance (start len b : ℕ) : Decidable (InRange start len b) :=
  inferInstanceAs (Decidable (_ ∧ _))

/-- Only two read locks of different processes go together. -/
def Compatible (a b : LockType) : Prop := a = .rdlck ∧ b = .rdlck

variable {P : Type}

/-- A lock call need not wait. -/
def Granted (locks : LockTable P) (p : P) : Call → Prop
  | .setlkw fd type start len =>
    ∀ q, q ≠ p → ∀ b, InRange start len b → ∀ t, locks q fd b = some t → Compatible type t
  | _ => True

def setLocks [DecidableEq P] (locks : LockTable P) (p : P) (fd : Fd) (start len : ℕ)
    (value : Option LockType) : LockTable P :=
  fun q f b => if q = p ∧ f = fd ∧ InRange start len b then value else locks q f b

def lockCall [DecidableEq P] (p : P) : Call → LockTable P → LockTable P
  | .setlkw fd type start len, locks => setLocks locks p fd start len (some type)
  | .unlck fd start len, locks => setLocks locks p fd start len none
  | _, locks => locks

/-- One system call of process `p`. -/
def exec [DecidableEq P] (p : P) (c : Call) (s : Shared P) (pos : Pos) (r : c.Ret)
    (s' : Shared P) (pos' : Pos) : Prop :=
  Granted s.locks p c ∧ fileCall c (s.files, pos) = (r, s'.files, pos') ∧
    s'.locks = lockCall p c s.locks

def exitProcess [DecidableEq P] (p : P) (s : Shared P) : Shared P :=
  { s with locks := fun q fd b => if q = p then none else s.locks q fd b }

/-- The operations on one key; each of them locks the hash chain of its key. -/
inductive KeyOp
  | fetch (key : List Byte)
  | store (key data : List Byte) (flag : ℤ)
  | delete (key : List Byte)
  deriving DecidableEq

inductive Op
  | keyed (o : KeyOp)
  | rewind
  | nextrec
  deriving DecidableEq

inductive Res
  | data (ptr : Option (List Byte))
  | code (rc : ℤ)
  | record (ptr : Option (List Byte × List Byte))
  | done
  deriving DecidableEq

def keyOpBody (fuel : ℕ) : KeyOp → DB → Prog sig (DB × Res)
  | .fetch key, db => do
    let (db, ptr) ← dbFetch fuel db key
    return (db, .data ptr)
  | .store key data flag, db => do
    let (db, rc) ← dbStore fuel db key data flag
    return (db, .code rc)
  | .delete key, db => do
    let (db, rc) ← dbDelete fuel db key
    return (db, .code rc)

def opBody (fuel : ℕ) : Op → DB → Prog sig (DB × Res)
  | .keyed o, db => keyOpBody fuel o db
  | .rewind, db => do
    let db ← dbRewind db
    return (db, .done)
  | .nextrec, db => do
    let (db, ptr) ← dbNextrec fuel db
    return (db, .record ptr)

/-- The processes `p` perform the operations that `allowed p` admits. -/
def machine [DecidableEq P] (fuel : ℕ) (allowed : P → Op → Prop) :
    Machine sig P Op Res DB (Shared P) Pos where
  body := opBody fuel
  exec := exec
  exit := exitProcess
  allowed := allowed

abbrev DbConfig (P : Type) := Config sig P Op Res DB (Shared P) Pos

/-- The handle that db_open returns. -/
def openedHandle : DB := { nhash := NHASH_DEF, hashoff := HASH_OFF, idxoff := 967 }

theorem opened_openedHandle : openedHandle.Opened := ⟨rfl, rfl⟩

/-- The two files of a database just created. -/
def createdFiles : Files := ⟨emptyTable, []⟩

/-- Every process has opened the database and is about to use it. -/
def opened (files : Files) : DbConfig P where
  shared := ⟨files, fun _ _ _ => none⟩
  priv _ := ⟨967, 0⟩
  thread _ := .idle openedHandle
  hist := []

theorem atRest_opened (files : Files) : (opened files : DbConfig P).AtRest :=
  Config.atRest_of_idle fun _ => ⟨_, rfl⟩

/-- db_open with O_CREAT and O_TRUNC, where open(2) has emptied both files. -/
theorem dbOpen_create :
    (dbOpen true).run fileCall (⟨[], []⟩, ⟨0, 0⟩) =
      (.ok openedHandle, createdFiles, ⟨967, 0⟩) := by
  decide +kernel

/-- db_open of a database that exists leaves its files alone. -/
theorem dbOpen_existing (files : Files) (pos : Pos) :
    (dbOpen false).run fileCall (files, pos) =
      (.ok openedHandle, files, { pos with idx := 967 }) := by
  rfl

end Apue.Db
