import Apue.ByteFiles
import Apue.Programs

/-!
The rot13 programs. rot13a reads a block, translates and writes it until the input ends.
rot13c2 keeps up to eight blocks in asynchronous reads and writes; the kernel completes
them in any order, while the program looks at its buffers one after the other and waits
when none of the operations is complete.

The input does not change, reads are short only at its end, and no operation fails. The
output begins empty.
-/
namespace Apue.Rot13

open Decimal ByteFiles Programs

def BSZ : ℕ := 4096

def NBUF : ℕ := 8

/-- The letters of the C locale. -/
def isalpha (c : Byte) : Bool := (65 ≤ c && c ≤ 90) || (97 ≤ c && c ≤ 122)

def translate (c : Byte) : Byte :=
  if isalpha c then
    if 110 ≤ c then c - 13
    else if 97 ≤ c then c + 13
    else if 78 ≤ c then c - 13
    else c + 13
  else c

/-- The loop of rot13a, when both files are at an offset. -/
def rot13aLoop (input out : List Byte) (off : ℕ) : List Byte :=
  if 0 < (readAt input off BSZ).length then
    rot13aLoop input (writeAt out off ((readAt input off BSZ).map translate))
      (off + (readAt input off BSZ).length)
  else out
termination_by input.length - off
decreasing_by
  simp only [readAt, List.length_take, List.length_drop] at *
  omega

def rot13a (input : List Byte) : List Byte := rot13aLoop input [] 0

inductive Rwop
  | UNUSED
  | READ_PENDING
  | WRITE_PENDING
  deriving DecidableEq

inductive Fd
  | ifd
  | ofd
  deriving DecidableEq

/-- The state of an asynchronous operation; `done` has the number of bytes transferred. -/
inductive Aio
  | none
  | reading
  | writing
  | done (n : ℕ)
  deriving DecidableEq

structure Buf where
  op : Rwop
  last : Bool
  aio_fildes : Fd
  aio_offset : ℕ
  aio_nbytes : ℕ
  data : List Byte
  aio : Aio

namespace Buf

/-- aio_read of the block at an offset. -/
def startRead (b : Buf) (size off : ℕ) : Buf :=
  { b with
    op := .READ_PENDING
    aio_fildes := .ifd
    aio_offset := off
    last := if size ≤ off + BSZ then true else b.last
    aio_nbytes := BSZ
    aio := .reading }

/-- The `n` bytes that were read are translated, and aio_write begins. -/
def startWrite (b : Buf) (n : ℕ) : Buf :=
  { b with
    data := (b.data.take n).map translate ++ b.data.drop n
    op := .WRITE_PENDING
    aio_fildes := .ofd
    aio_nbytes := n
    aio := .writing }

def free (b : Buf) : Buf := { b with op := .UNUSED, aio := .none }

/-- The kernel has read the bytes. -/
def received (b : Buf) (bytes : List Byte) : Buf :=
  { b with
    data := bytes ++ b.data.drop bytes.length
    aio := .done bytes.length }

/-- The kernel has written the bytes. -/
def sent (b : Buf) : Buf := { b with aio := .done b.aio_nbytes }

end Buf

/-- Where the main loop is: at a buffer, at the test after the last one, in aio_suspend,
or at its end. `quit` is a call of err_quit. -/
inductive Pc
  | scan (i : ℕ)
  | suspend
  | exited
  | quit
  deriving DecidableEq

/-- The program and the output file. `written` has the offsets of the writes that are
complete, the last one first. -/
structure State where
  bufs : ℕ → Buf
  aiolist : ℕ → Bool
  off : ℕ
  numop : ℤ
  pc : Pc
  out : List Byte
  written : List ℕ

namespace State

def initial : State where
  bufs := fun _ => ⟨.UNUSED, false, .ifd, 0, 0, [], .none⟩
  aiolist := fun _ => false
  off := 0
  numop := 0
  pc := .scan 0
  out := []
  written := []

def setBuf (s : State) (i : ℕ) (b : Buf) : State := { s with bufs := Function.update s.bufs i b }

/-- A buffer that is not used gets the next block. -/
def unused (s : State) (size i : ℕ) : State :=
  if s.off < size then
    { s.setBuf i ((s.bufs i).startRead size s.off) with
      off := s.off + BSZ
      aiolist := Function.update s.aiolist i true
      numop := s.numop + 1
      pc := .scan (i + 1) }
  else { s with pc := .scan (i + 1) }

/-- A read that is complete is translated and written. -/
def readPending (s : State) (i : ℕ) : State :=
  match (s.bufs i).aio with
  | .done n =>
    if n ≠ BSZ ∧ (s.bufs i).last = false then { s with pc := .quit }
    else { s.setBuf i ((s.bufs i).startWrite n) with pc := .scan (i + 1) }
  | _ => { s with pc := .scan (i + 1) }

/-- After a write that is complete the buffer is not used any more. -/
def writePending (s : State) (i : ℕ) : State :=
  match (s.bufs i).aio with
  | .done n =>
    if n ≠ (s.bufs i).aio_nbytes then { s with pc := .quit }
    else { s.setBuf i (s.bufs i).free with
      aiolist := Function.update s.aiolist i false
      numop := s.numop - 1
      pc := .scan (i + 1) }
  | _ => { s with pc := .scan (i + 1) }

/-- The operation of a buffer is complete. -/
def ready (s : State) (i : ℕ) : Bool :=
  s.aiolist i && match (s.bufs i).aio with
    | .done _ => true
    | _ => false

/-- The next step of the main loop. -/
def run (s : State) (size : ℕ) : Option State :=
  match s.pc with
  | .scan i =>
    if i < NBUF then
      match (s.bufs i).op with
      | .UNUSED => some (s.unused size i)
      | .READ_PENDING => some (s.readPending i)
      | .WRITE_PENDING => some (s.writePending i)
    else if s.numop = 0 then
      if size ≤ s.off then some { s with pc := .exited } else some { s with pc := .scan 0 }
    else some { s with pc := .suspend }
  | .suspend => if (List.range NBUF).any s.ready then some { s with pc := .scan 0 } else none
  | .exited => none
  | .quit => none

/-- The kernel completes the operation of a buffer. -/
def complete (s : State) (input : List Byte) (i : ℕ) : Option State :=
  match (s.bufs i).aio with
  | .reading =>
    let file := match (s.bufs i).aio_fildes with
      | .ifd => input
      | .ofd => s.out
    some (s.setBuf i ((s.bufs i).received (readAt file (s.bufs i).aio_offset (s.bufs i).aio_nbytes)))
  | .writing =>
    match (s.bufs i).aio_fildes with
    | .ifd => none
    | .ofd => some { s.setBuf i (s.bufs i).sent with
        out := writeAt s.out (s.bufs i).aio_offset ((s.bufs i).data.take (s.bufs i).aio_nbytes)
        written := (s.bufs i).aio_offset :: s.written }
  | _ => none

/-- A step: of the main loop, or the completion of the operation of a buffer. -/
def step (input : List Byte) (s : State) : Option ℕ → Option State
  | none => s.run input.length
  | some i => if i < NBUF then s.complete input i else none

end State

def Reachable (input : List Byte) (s : State) : Prop :=
  ∃ events, steps (State.step input) events State.initial = some s

end Apue.Rot13
