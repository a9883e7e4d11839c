import Apue.Buffers
import Apue.Decimal

/-!
Memory streams, as fmemopen opens them. A stream has a buffer, the end of its data and a
position. Sizes and positions are of type size_t, but lengths, and offsets on their way
into the buffer, are of type int. The functions follow fmemopen.c.
-/
namespace Apue.MemStream

open Decimal Buffers

def INT_MAX : ℕ := 2 ^ 31 - 1

/-- A value that is stored in an int. -/
def toInt (v : ℤ) : ℤ := v.bmod (2 ^ 32)

/-- The flags MS_READ, MS_WRITE, MS_APPEND, MS_TRUNCATE and MS_MYBUF. -/
structure Flags where
  read : Bool
  write : Bool
  append : Bool
  truncate : Bool
  mybuf : Bool
  deriving DecidableEq

def Flags.zero : Flags := ⟨false, false, false, false, false⟩

/-- `struct memstream`; rsize is the size of the buffer. -/
structure Stream where
  buf : Buffer Byte
  vsize : ℕ
  curpos : ℕ
  flags : Flags

def Stream.rsize (ms : Stream) : ℕ := ms.buf.size

/-- The loop of type_to_flags; none for a type that is not accepted. -/
def typeLoop : List Char → Flags → Option Flags
  | [], flags => some flags
  | c :: type, flags =>
    if c = 'r' then
      if flags ≠ .zero then none else typeLoop type { flags with read := true }
    else if c = 'w' then
      if flags ≠ .zero then none else typeLoop type { flags with write := true, truncate := true }
    else if c = 'a' then
      if flags ≠ .zero then none else typeLoop type { flags with append := true }
    else if c = '+' then
      if flags = .zero then none else typeLoop type { flags with read := true, write := true }
    else if c = 'b' then
      if flags = .zero then none else typeLoop type flags
    else none

/-- The flags for a type, or zero. -/
def typeToFlags (type : List Char) : Flags := (typeLoop type .zero).getD .zero

/-- The loop of find_end, with `left` bytes before `len`. -/
def findEnd (buf : Buffer Byte) : ℕ → ℕ → ℕ
  | 0, off => off
  | left + 1, off => if buf.cell off = 0 then off else findEnd buf left (off + 1)

/-- A stream on a buffer of `size` bytes, which is the one that is `given` or a new one, and
which holds `memory`. -/
def fmemopen (given : Bool) (memory : ℕ → Byte) (size : ℕ) (type : List Char) : Option Stream :=
  let flags := typeToFlags type
  if size = 0 then none
  else if flags = .zero then none
  else if given = false ∧ ¬ (flags.read = true ∧ flags.write = true) then none
  else
    let buf : Buffer Byte := ⟨size, memory⟩
    let curpos := if given ∧ flags.append then findEnd buf size 0 else 0
    some {
      buf := buf
      vsize := if flags.append then curpos else if flags.truncate then 0 else size
      curpos := curpos
      flags := { flags with mybuf := !given } }

/-- What a call returns, and what it has put into the buffer of the caller. -/
structure Result where
  value : ℤ
  data : List Byte
  deriving DecidableEq

/-- `nr` bytes from `ms->buf + off` on. An access beyond the buffer is not defined. -/
def load (buf : Buffer Byte) (off nr : ℤ) : Option (List Byte) :=
  if 0 ≤ off ∧ 0 ≤ nr ∧ off + nr ≤ buf.size then
    some ((List.range' off.toNat nr.toNat).map buf.cell)
  else none

def store (buf : Buffer Byte) (off nw : ℤ) (data : List Byte) : Option (Buffer Byte) :=
  if 0 ≤ off ∧ 0 ≤ nw ∧ off + nw ≤ buf.size ∧ nw ≤ data.length then
    some (buf.write off.toNat (data.take nw.toNat))
  else none

/-- The difference of two values of type size_t. -/
def sizeSub (a : ℕ) (b : ℤ) : ℕ := ((a - b) % 2 ^ 64).toNat

def mstreamRead (ms : Stream) (len : ℕ) : Option (Result × Stream) :=
  if ms.flags.read = false then some (⟨-1, []⟩, ms)
  else if ms.vsize ≤ ms.curpos then some (⟨0, []⟩, ms)
  else do
    let nr := toInt (min len (sizeSub ms.vsize ms.curpos) : ℕ)
    let data ← load ms.buf ms.curpos nr
    some (⟨nr, data⟩, { ms with curpos := ms.curpos + nr.toNat })

/-- The null behind the data of a stream for reading and writing that has become longer. -/
def endLonger (ms : Stream) : Option Stream :=
  if ms.vsize < ms.curpos then
    let ms := { ms with vsize := ms.curpos }
    if (ms.flags.read && ms.flags.write) = true ∧ ms.vsize < ms.rsize then do
      let buf ← ms.buf.set ms.vsize 0
      some { ms with buf := buf }
    else some ms
  else some ms

/-- The null behind what was written to a stream for writing only. -/
def endWritten (ms : Stream) : Option Stream :=
  if (ms.flags.write || ms.flags.append) = true ∧ ms.flags.read = false then
    if ms.curpos < ms.rsize then do
      let buf ← ms.buf.set ms.curpos 0
      some { ms with buf := buf }
    else do
      let buf ← ms.buf.set (ms.rsize - 1) 0
      some { ms with buf := buf }
  else some ms

def mstreamWrite (ms : Stream) (data : List Byte) : Option (Result × Stream) :=
  if (ms.flags.append || ms.flags.write) = false then some (⟨-1, []⟩, ms)
  else do
    let off := toInt (if ms.flags.append then ms.vsize else ms.curpos : ℕ)
    let nw := toInt (min data.length (sizeSub ms.rsize off) : ℕ)
    let buf ← store ms.buf off nw data
    let ms ← endLonger { ms with buf := buf, curpos := (off + nw).toNat }
    let ms ← endWritten ms
    some (⟨nw, []⟩, ms)

inductive Whence
  | set
  | fromEnd
  | cur
  deriving DecidableEq

/-- The place from which a seek counts. -/
def Stream.base (ms : Stream) : Whence → ℕ
  | .set => 0
  | .fromEnd => ms.vsize
  | .cur => ms.curpos

/-- The sum is computed in 64 bits and stored in an int. -/
def mstreamSeek (ms : Stream) (pos : ℤ) (whence : Whence) : Result × Stream :=
  let off := toInt ((ms.base whence + pos) % 2 ^ 64)
  if off < 0 ∨ (ms.vsize : ℤ) < off then (⟨-1, []⟩, ms)
  else (⟨off, []⟩, { ms with curpos := off.toNat })

end Apue.MemStream
