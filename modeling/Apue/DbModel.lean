import Apue.Programs
import Apue.ByteFiles

/-!
The database library of db/db.c as programs over its system calls. Each
function keeps the source's name, order of calls and error checks; the DB
structure is passed along explicitly. A C string is the list of its bytes
before the terminating null. The loops over a hash chain, over the free list
and over the index file carry a bound `fuel` and end in `diverge` beyond it.

db_store and the functions under it are given with the two buffers of the handle
in view. The data argument may be the pointer that db_fetch returned, which is the
handle's data buffer, so it is read anew at each use. `format` says what it means
to format the text of an index record into the index buffer: nothing further, or
an end of the process with a message. The library's functions are the instances
with a string for the data and no such end.

What is left out: the descriptors and the name in the DB structure, and the
failures of the system calls themselves, all of which end in err_dump.
-/
namespace Apue.Db

open Programs Decimal ByteFiles

inductive Fd
  | idx
  | dat
  deriving DecidableEq

inductive Whence
  | seekSet
  | seekCur
  | seekEnd
  deriving DecidableEq

inductive LockType
  | rdlck
  | wrlck
  deriving DecidableEq

/-- `setlkw` is fcntl with F_SETLKW, `unlck` is F_SETLK with F_UNLCK; a length
of 0 reaches to the end of the file and beyond. readv and writev are one read
and one write. -/
inductive Call
  | lseek (fd : Fd) (offset : ℤ) (whence : Whence)
  | read (fd : Fd) (nbytes : ℕ)
  | write (fd : Fd) (bytes : List Byte)
  | setlkw (fd : Fd) (type : LockType) (start len : ℕ)
  | unlck (fd : Fd) (start len : ℕ)
  | fstat (fd : Fd)

abbrev Call.Ret : Call → Type
  | .lseek .. => ℤ
  | .read .. => List Byte
  | .write .. => ℤ
  | .setlkw .. => ℤ
  | .unlck .. => ℤ
  | .fstat _ => ℕ

abbrev sig : Signature := ⟨Call, Call.Ret⟩

def lseek (fd : Fd) (offset : ℤ) (whence : Whence) : Prog sig ℤ :=
  .call (.lseek fd offset whence) .ret

def read (fd : Fd) (nbytes : ℕ) : Prog sig (List Byte) := .call (.read fd nbytes) .ret

def write (fd : Fd) (bytes : List Byte) : Prog sig ℤ := .call (.write fd bytes) .ret

def fstat (fd : Fd) : Prog sig ℕ := .call (.fstat fd) .ret

def readwLock (fd : Fd) (offset len : ℕ) : Prog sig ℤ :=
  .call (.setlkw fd .rdlck offset len) .ret

def writewLock (fd : Fd) (offset len : ℕ) : Prog sig ℤ :=
  .call (.setlkw fd .wrlck offset len) .ret

def unLock (fd : Fd) (offset len : ℕ) : Prog sig ℤ := .call (.unlck fd offset len) .ret

/-- `if (cond) err_dump(msg);` and the same for err_quit. -/
def errDumpIf (cond : Prop) [Decidable cond] (msg : String) : Prog sig Unit :=
  if cond then .abort msg else .ret ()

def IDXLEN_SZ : ℕ := 4
def SEP : Byte := 58
def SPACE : Byte := 32
def NEWLINE : Byte := 10
def PTR_SZ : ℕ := 7
def PTR_MAX : ℕ := 9999999
def NHASH_DEF : ℕ := 137
def FREE_OFF : ℕ := 0
def HASH_OFF : ℕ := PTR_SZ

def DB_INSERT : ℤ := 1
def DB_REPLACE : ℤ := 2
def DB_STORE : ℤ := 3

def IDXLEN_MIN : ℕ := 6
def IDXLEN_MAX : ℕ := 1024
def DATLEN_MIN : ℕ := 2
def DATLEN_MAX : ℕ := 1024

inductive Errno
  | EINVAL
  | ENOENT
  deriving DecidableEq

/-- The counters of the DB structure, `stor1` to `stor4` for the four ways in
which db_store succeeds. -/
structure Counters where
  delok : ℕ := 0
  delerr : ℕ := 0
  fetchok : ℕ := 0
  fetcherr : ℕ := 0
  nextrec : ℕ := 0
  stor1 : ℕ := 0
  stor2 : ℕ := 0
  stor3 : ℕ := 0
  stor4 : ℕ := 0
  storerr : ℕ := 0
  deriving DecidableEq

/-- The library's private representation of the database. `idxbuf` and `datbuf`
are the strings at the start of the two buffers; `errno` is the process's. -/
structure DB where
  idxbuf : List Byte := []
  datbuf : List Byte := []
  idxoff : ℤ := 0
  idxlen : ℕ := 0
  datoff : ℤ := 0
  datlen : ℕ := 0
  ptrval : ℤ := 0
  ptroff : ℤ := 0
  chainoff : ℕ := 0
  hashoff : ℕ := 0
  nhash : ℕ := 0
  cnt : Counters := {}
  errno : Option Errno := none
  deriving DecidableEq

/-- A C string inside a buffer ends at the first null. -/
def cstr (buf : List Byte) : List Byte := buf.takeWhile (· ≠ 0)

/-- strchr cuts a string at the first occurrence of a byte. -/
def strchr (text : List Byte) (b : Byte) : Option (List Byte × List Byte) :=
  match text.dropWhile (· ≠ b) with
  | [] => none
  | _ :: rest => some (text.takeWhile (· ≠ b), rest)

/-- A long assigned to a size_t. -/
def sizeOfLong (v : ℤ) : ℕ := if 0 ≤ v then v.toNat else 2 ^ 64 - min v.natAbs (2 ^ 63)

/-- A plain char is signed here. -/
def charVal (c : Byte) : ℤ := if c < 128 then c.toNat else (c.toNat : ℤ) - 256

/-- The loop of _db_hash; the sum is an unsigned long. -/
def hashLoop : List Byte → ℤ → ℕ → ℕ
  | [], _, hval => hval
  | c :: key, i, hval => hashLoop key (i + 1) (((hval : ℤ) + charVal c * i) % 2 ^ 64).toNat

def dbHash (db : DB) (key : List Byte) : ℕ := hashLoop key 1 0 % db.nhash

def dbReadptr (offset : ℤ) : Prog sig ℤ := do
  let pos ← lseek .idx offset .seekSet
  errDumpIf (pos = -1) "_db_readptr: lseek error to ptr field"
  let asciiptr ← read .idx PTR_SZ
  errDumpIf (asciiptr.length ≠ PTR_SZ) "_db_readptr: read error of ptr field"
  return atol asciiptr

/-- The part of _db_readidx that finds the separators and the numbers. -/
def parseIdx (db : DB) (buf : List Byte) : Prog sig DB :=
  match strchr (cstr buf) SEP with
  | none => .abort "_db_readidx: missing first separator"
  | some (key, ptr1) =>
    match strchr ptr1 SEP with
    | none => .abort "_db_readidx: missing second separator"
    | some (start, ptr2) => do
      errDumpIf ((strchr ptr2 SEP).isSome) "_db_readidx: too many separators"
      let db := { db with idxbuf := key, datoff := atol start }
      errDumpIf (db.datoff < (0 : ℤ)) "_db_readidx: starting offset < 0"
      let db := { db with datlen := sizeOfLong (atol ptr2) }
      errDumpIf (db.datlen ≤ 0 ∨ db.datlen > DATLEN_MAX) "_db_readidx: invalid length"
      return db

/-- Returns the chain pointer, or -1 at the end of the file when called with
offset 0, which means the current offset. -/
def dbReadidx (db : DB) (offset : ℤ) : Prog sig (DB × ℤ) := do
  let pos ← lseek .idx offset (if offset = 0 then .seekCur else .seekSet)
  let db := { db with idxoff := pos }
  errDumpIf (pos = -1) "_db_readidx: lseek error"
  let head ← read .idx (PTR_SZ + IDXLEN_SZ)
  if head.length = 0 ∧ offset = 0 then
    return (db, -1)
  else do
    errDumpIf (head.length ≠ PTR_SZ + IDXLEN_SZ) "_db_readidx: readv error of index record"
    let db := { db with
      ptrval := atol (head.take PTR_SZ)
      idxlen := sizeOfLong (atol (head.drop PTR_SZ)) }
    errDumpIf (db.idxlen < IDXLEN_MIN ∨ db.idxlen > IDXLEN_MAX) "_db_readidx: invalid length"
    let buf ← read .idx db.idxlen
    errDumpIf (buf.length ≠ db.idxlen) "_db_readidx: read error of index record"
    errDumpIf (buf.getLast? ≠ some NEWLINE) "_db_readidx: missing newline"
    let db ← parseIdx db buf.dropLast
    return (db, db.ptrval)

def dbReaddat (db : DB) : Prog sig DB := do
  let pos ← lseek .dat db.datoff .seekSet
  errDumpIf (pos = -1) "_db_readdat: lseek error"
  let buf ← read .dat db.datlen
  errDumpIf (buf.length ≠ db.datlen) "_db_readdat: read error"
  errDumpIf (buf.getLast? ≠ some NEWLINE) "_db_readdat: missing newline"
  return { db with datbuf := cstr buf.dropLast }

/-- The while loop of _db_find_and_lock; returns the last offset. -/
def findLoop : ℕ → DB → List Byte → ℤ → Prog sig (DB × ℤ)
  | 0, _, _, _ => .diverge
  | fuel + 1, db, key, offset =>
    if offset ≠ 0 then do
      let (db, nextoffset) ← dbReadidx db offset
      if db.idxbuf = key then return (db, offset)
      else findLoop fuel { db with ptroff := offset } key nextoffset
    else return (db, offset)

def lockChain (db : DB) (writelock : Bool) : Prog sig Unit :=
  if writelock then do
    let rc ← writewLock .idx db.chainoff 1
    errDumpIf (rc < 0) "_db_find_and_lock: writew_lock error"
  else do
    let rc ← readwLock .idx db.chainoff 1
    errDumpIf (rc < 0) "_db_find_and_lock: readw_lock error"

def dbFindAndLock (fuel : ℕ) (db : DB) (key : List Byte) (writelock : Bool) :
    Prog sig (DB × ℤ) := do
  let chainoff := dbHash db key * PTR_SZ + db.hashoff
  let db := { db with chainoff := chainoff, ptroff := chainoff }
  lockChain db writelock
  let offset ← dbReadptr db.ptroff
  let (db, offset) ← findLoop fuel db key offset
  return (db, if offset = 0 then -1 else 0)

/-- Only an append takes the lock of the region that grows. -/
def appendLock (whence : Whence) (fd : Fd) (start : ℕ) (msg : String) : Prog sig Unit :=
  if whence = .seekEnd then do
    let rc ← writewLock fd start 0
    errDumpIf (rc < 0) msg
  else return ()

def appendUnlock (whence : Whence) (fd : Fd) (start : ℕ) (msg : String) : Prog sig Unit :=
  if whence = .seekEnd then do
    let rc ← unLock fd start 0
    errDumpIf (rc < 0) msg
  else return ()

def dbWritedat (db : DB) (data : List Byte) (offset : ℤ) (whence : Whence) : Prog sig DB := do
  appendLock whence .dat 0 "_db_writedat: writew_lock error"
  let pos ← lseek .dat offset whence
  errDumpIf (pos = -1) "_db_writedat: lseek error"
  let db := { db with datoff := pos, datlen := data.length + 1 }
  let n ← write .dat (data ++ [NEWLINE])
  errDumpIf (n ≠ db.datlen) "_db_writedat: writev error of data record"
  appendUnlock whence .dat 0 "_db_writedat: un_lock error"
  return db

/-- The text of an index record after the two fixed fields. -/
def idxText (key : List Byte) (datoff : ℤ) (datlen : ℕ) : List Byte :=
  key ++ [SEP] ++ decimalInt datoff ++ [SEP] ++ decimal datlen ++ [NEWLINE]

/-- What the data argument of db_store points to. -/
inductive DataArg
  | string (data : List Byte)
  | datbuf

def DataArg.read (db : DB) : DataArg → List Byte
  | .string data => data
  | .datbuf => db.datbuf

@[simp] theorem DataArg.read_string (db : DB) (data : List Byte) :
    (DataArg.string data).read db = data := rfl

section Format

variable (format : List Byte → Option String)

def sprintfIdx (text : List Byte) : Prog sig Unit :=
  match format text with
  | none => return ()
  | some msg => .abort msg

def dbWriteidxWith (db : DB) (key : List Byte) (offset : ℤ) (whence : Whence) (ptrval : ℤ) :
    Prog sig DB := do
  let db := { db with ptrval := ptrval }
  errDumpIf (ptrval < 0 ∨ ptrval > PTR_MAX) "_db_writeidx: invalid ptr: %d"
  sprintfIdx format (idxText key db.datoff db.datlen)
  let db := { db with idxbuf := idxText key db.datoff db.datlen }
  let len := db.idxbuf.length
  errDumpIf (len < IDXLEN_MIN ∨ len > IDXLEN_MAX) "_db_writeidx: invalid length"
  let asciiptrlen := padLeft PTR_SZ (decimalInt ptrval) ++ padLeft IDXLEN_SZ (decimal len)
  appendLock whence .idx ((db.nhash + 1) * PTR_SZ + 1) "_db_writeidx: writew_lock error"
  let pos ← lseek .idx offset whence
  errDumpIf (pos = -1) "_db_writeidx: lseek error"
  let db := { db with idxoff := pos }
  let n ← write .idx (asciiptrlen ++ db.idxbuf)
  errDumpIf (n ≠ PTR_SZ + IDXLEN_SZ + len) "_db_writeidx: writev error of index record"
  appendUnlock whence .idx ((db.nhash + 1) * PTR_SZ + 1) "_db_writeidx: un_lock error"
  return db

def dbWriteptr (offset : ℤ) (ptrval : ℤ) : Prog sig Unit := do
  errDumpIf (ptrval < 0 ∨ ptrval > PTR_MAX) "_db_writeptr: invalid ptr: %d"
  let asciiptr := padLeft PTR_SZ (decimalInt ptrval)
  let pos ← lseek .idx offset .seekSet
  errDumpIf (pos = -1) "_db_writeptr: lseek error to ptr field"
  let n ← write .idx asciiptr
  errDumpIf (n ≠ PTR_SZ) "_db_writeptr: write error of ptr field"

/-- The sprintf of _db_writeidx is given the key in the buffer that it writes;
the copy of each byte onto itself leaves the key in place. -/
def dbDodeleteWith (db : DB) : Prog sig DB := do
  let db := { db with
    datbuf := List.replicate (db.datlen - 1) SPACE
    idxbuf := List.replicate db.idxbuf.length SPACE }
  let rc ← writewLock .idx FREE_OFF 1
  errDumpIf (rc < 0) "_db_dodelete: writew_lock error"
  let db ← dbWritedat db db.datbuf db.datoff .seekSet
  let freeptr ← dbReadptr FREE_OFF
  let saveptr := db.ptrval
  let db ← dbWriteidxWith format db db.idxbuf db.idxoff .seekSet freeptr
  dbWriteptr FREE_OFF db.idxoff
  dbWriteptr db.ptroff saveptr
  let rc ← unLock .idx FREE_OFF 1
  errDumpIf (rc < 0) "_db_dodelete: un_lock error"
  return db

end Format

/-- Formatting that always goes well. -/
def unchecked : List Byte → Option String := fun _ => none

theorem sprintfIdx_unchecked (text : List Byte) : sprintfIdx unchecked text = .ret () := rfl

def dbWriteidx (db : DB) (key : List Byte) (offset : ℤ) (whence : Whence) (ptrval : ℤ) :
    Prog sig DB :=
  dbWriteidxWith unchecked db key offset whence ptrval

def dbDodelete (db : DB) : Prog sig DB := dbDodeleteWith unchecked db

/-- The while loop of _db_findfree; returns the last offset and its predecessor. -/
def findfreeLoop : ℕ → DB → ℕ → ℕ → ℤ → ℤ → Prog sig (DB × ℤ × ℤ)
  | 0, _, _, _, _, _ => .diverge
  | fuel + 1, db, keylen, datlen, saveoffset, offset =>
    if offset ≠ 0 then do
      let (db, nextoffset) ← dbReadidx db offset
      if db.idxbuf.length = keylen ∧ db.datlen = datlen then return (db, offset, saveoffset)
      else findfreeLoop fuel db keylen datlen offset nextoffset
    else return (db, offset, saveoffset)

def dbFindfree (fuel : ℕ) (db : DB) (keylen datlen : ℕ) : Prog sig (DB × ℤ) := do
  let rc ← writewLock .idx FREE_OFF 1
  errDumpIf (rc < 0) "_db_findfree: writew_lock error"
  let offset ← dbReadptr FREE_OFF
  let (db, offset, saveoffset) ← findfreeLoop fuel db keylen datlen FREE_OFF offset
  let result ← (if offset = 0 then return -1 else do
    dbWriteptr saveoffset db.ptrval
    return 0 : Prog sig ℤ)
  let rc ← unLock .idx FREE_OFF 1
  errDumpIf (rc < 0) "_db_findfree: un_lock error"
  return (db, result)

def dbFetch (fuel : ℕ) (db : DB) (key : List Byte) :
    Prog sig (DB × Option (List Byte)) := do
  let (db, found) ← dbFindAndLock fuel db key false
  let (db, ptr) ← (if found < 0 then
      return ({ db with cnt.fetcherr := db.cnt.fetcherr + 1 }, none)
    else do
      let db ← dbReaddat db
      return ({ db with cnt.fetchok := db.cnt.fetchok + 1 }, some db.datbuf) :
    Prog sig (DB × Option (List Byte)))
  let rc ← unLock .idx db.chainoff 1
  errDumpIf (rc < 0) "db_fetch: un_lock error"
  return (db, ptr)

def dbDelete (fuel : ℕ) (db : DB) (key : List Byte) : Prog sig (DB × ℤ) := do
  let (db, found) ← dbFindAndLock fuel db key true
  let (db, result) ← (if found = 0 then do
      let db ← dbDodelete db
      return ({ db with cnt.delok := db.cnt.delok + 1 }, 0)
    else return ({ db with cnt.delerr := db.cnt.delerr + 1 }, -1) : Prog sig (DB × ℤ))
  let rc ← unLock .idx db.chainoff 1
  errDumpIf (rc < 0) "db_delete: un_lock error"
  return (db, result)

section Store

variable (format : List Byte → Option String)

/-- The branch of db_store in which the record was not found. -/
def storeNewWith (fuel : ℕ) (db : DB) (key : List Byte) (data : DataArg) (datlen : ℕ) (flag : ℤ) :
    Prog sig (DB × ℤ) :=
  if flag = DB_REPLACE then
    return ({ db with cnt.storerr := db.cnt.storerr + 1, errno := some .ENOENT }, -1)
  else do
    let ptrval ← dbReadptr db.chainoff
    let (db, free) ← dbFindfree fuel db key.length datlen
    if free < 0 then do
      let db ← dbWritedat db (data.read db) 0 .seekEnd
      let db ← dbWriteidxWith format db key 0 .seekEnd ptrval
      dbWriteptr db.chainoff db.idxoff
      return ({ db with cnt.stor1 := db.cnt.stor1 + 1 }, 0)
    else do
      let db ← dbWritedat db (data.read db) db.datoff .seekSet
      let db ← dbWriteidxWith format db key db.idxoff .seekSet ptrval
      dbWriteptr db.chainoff db.idxoff
      return ({ db with cnt.stor2 := db.cnt.stor2 + 1 }, 0)

/-- The branch of db_store in which the record was found. -/
def storeFoundWith (db : DB) (key : List Byte) (data : DataArg) (datlen : ℕ) (flag : ℤ) :
    Prog sig (DB × ℤ) :=
  if flag = DB_INSERT then
    return ({ db with cnt.storerr := db.cnt.storerr + 1 }, 1)
  else if datlen ≠ db.datlen then do
    let db ← dbDodeleteWith format db
    let ptrval ← dbReadptr db.chainoff
    let db ← dbWritedat db (data.read db) 0 .seekEnd
    let db ← dbWriteidxWith format db key 0 .seekEnd ptrval
    dbWriteptr db.chainoff db.idxoff
    return ({ db with cnt.stor3 := db.cnt.stor3 + 1 }, 0)
  else do
    let db ← dbWritedat db (data.read db) db.datoff .seekSet
    return ({ db with cnt.stor4 := db.cnt.stor4 + 1 }, 0)

def dbStoreWith (fuel : ℕ) (db : DB) (key : List Byte) (data : DataArg) (flag : ℤ) :
    Prog sig (DB × ℤ) :=
  if flag ≠ DB_INSERT ∧ flag ≠ DB_REPLACE ∧ flag ≠ DB_STORE then
    return ({ db with errno := some .EINVAL }, -1)
  else do
    let datlen := (data.read db).length + 1
    errDumpIf (datlen < DATLEN_MIN ∨ datlen > DATLEN_MAX) "db_store: invalid data length"
    let (db, found) ← dbFindAndLock fuel db key true
    let (db, result) ← (if found < 0 then storeNewWith format fuel db key data datlen flag
      else storeFoundWith format db key data datlen flag)
    let rc ← unLock .idx db.chainoff 1
    errDumpIf (rc < 0) "db_store: un_lock error"
    return (db, result)

end Store

def storeNew (fuel : ℕ) (db : DB) (key data : List Byte) (flag : ℤ) : Prog sig (DB × ℤ) :=
  storeNewWith unchecked fuel db key (.string data) (data.length + 1) flag

def storeFound (db : DB) (key data : List Byte) (flag : ℤ) : Prog sig (DB × ℤ) :=
  storeFoundWith unchecked db key (.string data) (data.length + 1) flag

def dbStore (fuel : ℕ) (db : DB) (key data : List Byte) (flag : ℤ) : Prog sig (DB × ℤ) :=
  dbStoreWith unchecked fuel db key (.string data) flag

def dbRewind (db : DB) : Prog sig DB := do
  let pos ← lseek .idx (((db.nhash + 1) * PTR_SZ + 1 : ℕ) : ℤ) .seekSet
  errDumpIf (pos = -1) "db_rewind: lseek error"
  return { db with idxoff := pos }

/-- The do-while loop of db_nextrec; false at the end of the index file. -/
def nextrecLoop : ℕ → DB → Prog sig (DB × Bool)
  | 0, _ => .diverge
  | fuel + 1, db => do
    let (db, ptr) ← dbReadidx db 0
    if ptr < 0 then return (db, false)
    else if db.idxbuf.all (· = SPACE) then nextrecLoop fuel db
    else return (db, true)

/-- Returns the key and the data of the next record that is not deleted. -/
def dbNextrec (fuel : ℕ) (db : DB) : Prog sig (DB × Option (List Byte × List Byte)) := do
  let rc ← readwLock .idx FREE_OFF 1
  errDumpIf (rc < 0) "db_nextrec: readw_lock error"
  let (db, more) ← nextrecLoop fuel db
  let (db, ptr) ← (if more then do
      let key := db.idxbuf
      let db ← dbReaddat db
      return ({ db with cnt.nextrec := db.cnt.nextrec + 1 }, some (key, db.datbuf))
    else return (db, none) : Prog sig (DB × Option (List Byte × List Byte)))
  let rc ← unLock .idx FREE_OFF 1
  errDumpIf (rc < 0) "db_nextrec: un_lock error"
  return (db, ptr)

/-- The text of a hash table whose chains are all empty. -/
def emptyTable : List Byte :=
  (List.replicate (NHASH_DEF + 1) (padLeft PTR_SZ (decimal 0))).flatten ++ [NEWLINE]

/-- The initialisation that db_open makes if O_CREAT and O_TRUNC are given. -/
def initTable : Prog sig Unit := do
  let rc ← writewLock .idx 0 0
  errDumpIf (rc < 0) "db_open: writew_lock error"
  let size ← fstat .idx
  (if size = 0 then do
      let n ← write .idx emptyTable
      errDumpIf (n ≠ emptyTable.length) "db_open: index file init write error"
    else return () : Prog sig Unit)
  let rc ← unLock .idx 0 0
  errDumpIf (rc < 0) "db_open: un_lock error"

/-- db_open once open(2) has given both descriptors. -/
def dbOpen (creatTrunc : Bool) : Prog sig DB := do
  let db : DB := { nhash := NHASH_DEF, hashoff := HASH_OFF }
  (if creatTrunc then initTable else return () : Prog sig Unit)
  dbRewind db

/-- The two files of a database. -/
structure Files where
  idx : List Byte
  dat : List Byte
  deriving DecidableEq

def Files.get (files : Files) : Fd → List Byte
  | .idx => files.idx
  | .dat => files.dat

def Files.set (files : Files) (fd : Fd) (bytes : List Byte) : Files :=
  match fd with
  | .idx => { files with idx := bytes }
  | .dat => { files with dat := bytes }

/-- The file offsets of one process's two descriptors. -/
structure Pos where
  idx : ℕ
  dat : ℕ
  deriving DecidableEq

def Pos.get (pos : Pos) : Fd → ℕ
  | .idx => pos.idx
  | .dat => pos.dat

def Pos.set (pos : Pos) (fd : Fd) (off : ℕ) : Pos :=
  match fd with
  | .idx => { pos with idx := off }
  | .dat => { pos with dat := off }

/-- The offset that lseek counts from. -/
def seekBase (files : Files) (pos : Pos) (fd : Fd) : Whence → ℤ
  | .seekSet => 0
  | .seekCur => pos.get fd
  | .seekEnd => (files.get fd).length

/-- What a call does to the files and to the offsets of its process. Locks do
not show here. -/
def fileCall : (c : Call) → Files × Pos → c.Ret × (Files × Pos)
  | .lseek fd offset whence, (files, pos) =>
    let target := seekBase files pos fd whence + offset
    if target < 0 then (-1, files, pos) else (target, files, pos.set fd target.toNat)
  | .read fd n, (files, pos) =>
    let bytes := readAt (files.get fd) (pos.get fd) n
    (bytes, files, pos.set fd (pos.get fd + bytes.length))
  | .write fd bytes, (files, pos) =>
    (bytes.length, files.set fd (writeAt (files.get fd) (pos.get fd) bytes),
      pos.set fd (pos.get fd + bytes.length))
  | .setlkw .., s => (0, s)
  | .unlck .., s => (0, s)
  | .fstat fd, (files, pos) => ((files.get fd).length, files, pos)

/-- The fields that decide where the chain and the locks lie. -/
def DB.SameChain (db db' : DB) : Prop :=
  db'.nhash = db.nhash ∧ db'.hashoff = db.hashoff ∧ db'.chainoff = db.chainoff

theorem DB.SameChain.refl (db : DB) : db.SameChain db := ⟨rfl, rfl, rfl⟩

theorem DB.SameChain.trans {a b c : DB} (h : a.SameChain b) (h' : b.SameChain c) :
    a.SameChain c :=
  ⟨h'.1.trans h.1, h'.2.1.trans h.2.1, h'.2.2.trans h.2.2⟩

/-- A handle as db_open makes it and every operation keeps it. -/
def DB.Opened (db : DB) : Prop := db.nhash = NHASH_DEF ∧ db.hashoff = HASH_OFF

theorem DB.Opened.of_sameChain {db db' : DB} (h : db.Opened) (hs : db.SameChain db') :
    db'.Opened := ⟨hs.1.trans h.1, hs.2.1.trans h.2⟩

end Apue.Db
