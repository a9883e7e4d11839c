import Apue.Buffers
import Apue.Formats
import Apue.PrintDaemon

/-!
The printer's answer to a job. The function printer_status reads the HTTP header and
the IPP header behind it into one buffer, and parses them as they come in: the status
line, the field Content-Length, the end of the header and the IPP header. An index i
and the pointer cp, which is always bp + i, move over the buffer, and where i comes to
the end of the data, readmore gets more of it. The functions follow printd.c. A response
in a bad format is logged, and printf takes it for a format; the other things that are
logged have formats of their own and are left out.
-/
namespace Apue.Printer

open Programs Decimal Buffers Formats Print

/-- The only call is tread, with the number of bytes it asks for. The answer is what
was read; it is empty at the end of the stream, after an error and after a timeout. -/
abbrev sig : Signature := ⟨ℕ, fun _ => List Byte⟩

def tread (nbytes : ℕ) : Prog sig (List Byte) := Prog.call (S := sig) nbytes .ret

/-- An access beyond the end of the buffer is not defined. -/
def inBounds {α : Type} : Option α → Prog sig α
  | none => .abort "access beyond the buffer"
  | some a => .ret a

def httpInfo (code : ℤ) : Bool := 100 ≤ code && code ≤ 199
def httpSuccess (code : ℤ) : Bool := 200 ≤ code && code ≤ 299
def statclassOk (status : ℕ) : Bool := status ≤ 0xff

def CONTENT_LENGTH : List Byte := "Content-Length:".toList.map fun c => UInt8.ofNat c.toNat

def tolower (b : Byte) : Byte := if 65 ≤ b && b ≤ 90 then b + 32 else b

/-- The comparison of two letters by strncasecmp. -/
def sameLetter (a b : Byte) : Bool := tolower a == tolower b

def atoi (bp : Buffer Byte) (p : ℕ) : Option ℤ :=
  (bp.takeWhile (fun b => b != 0) p).map fun text => int32 (atol text)

/-- The number in the `n` bytes at `p`, in network byte order. -/
def ntoh (bp : Buffer Byte) (p n : ℕ) : Option ℕ :=
  ((List.range' p n).mapM bp.get).map ofBytes

/-- The variables bp, i and datsz. -/
structure Position where
  bp : Buffer Byte
  i : ℕ
  datsz : ℕ

/-- The buffer and the offset of the end of the data in it, or none on failure. -/
def readmore (bp : Buffer Byte) (off : ℕ) : Prog sig (Option (Buffer Byte × ℕ)) := do
  let bp := if bp.size ≤ off then bp.grow IOBUFSZ else bp
  -- The count bsz-off would be negative.
  if bp.size < off then .abort "read beyond the buffer"
  else do
    let data ← tread (bp.size - off)
    if data = [] then return none
    else return some (bp.write off data, off + data.length)

/-- Get more data: what readmore returns is added to datsz. -/
def getMore (pos : Position) : Prog sig (Option Position) := do
  match ← readmore pos.bp pos.i with
  | none => return none
  | some (bp, nr) => return some ⟨bp, pos.i, pos.datsz + nr⟩

/-- Get more data if the index is at the end of it. -/
def refill (pos : Position) : Prog sig (Option Position) :=
  if pos.datsz ≤ pos.i then getMore pos else .ret (some pos)

/-- The status line: the buffer, the index of its end and the code; `some none` if
there is no code. -/
def statusLine (bp : Buffer Byte) : Option (Option (Buffer Byte × ℕ × ℤ)) := do
  let statcode ← bp.scan isSpace 8
  let cp ← bp.scan isDigit statcode
  if cp = statcode then some none
  else do
    let bp ← bp.set cp 0
    let cp ← bp.scan (fun b => b != 13 && b != 10) (cp + 1)
    let bp ← bp.set cp 0
    let code ← atoi bp statcode
    some (some (bp, cp, code))

/-- The loop that looks for a letter C; `left` bytes of data are left. The byte is
looked at before the index is compared with datsz. -/
def seekC (bp : Buffer Byte) : ℕ → ℕ → Option ℕ
  | 0, i => (bp.get i).map fun _ => i
  | left + 1, i => do
    let c ← bp.get i
    if c ≠ 67 ∧ c ≠ 99 then seekC bp left (i + 1) else some i

/-- The value of the field whose name is at `i`. The byte after it is overwritten. -/
def lengthField (bp : Buffer Byte) (i : ℕ) : Option (Buffer Byte × ℕ × ℤ) := do
  let contentlen ← bp.scan isSpace (i + 15)
  let cp ← bp.scan isDigit contentlen
  let bp ← bp.set cp 0
  let len ← atoi bp contentlen
  some (bp, cp + 1, len)

/-- The comparison with Content-Length at the index, and the search behind it. -/
def takeLength (search : Position → Prog sig (Option (Position × ℤ))) (pos : Position) :
    Prog sig (Option (Position × ℤ)) := do
  match ← inBounds (pos.bp.agrees sameLetter pos.i CONTENT_LENGTH) with
  | true => do
    let r ← inBounds (lengthField pos.bp pos.i)
    return some (⟨r.1, r.2.1, pos.datsz⟩, r.2.2)
  | false => search { pos with i := pos.i + 1 }

/-- The search for Content-Length. -/
def findLength : ℕ → Position → Prog sig (Option (Position × ℤ))
  | 0, _ => .diverge
  | fuel + 1, pos => do
    let i ← inBounds (seekC pos.bp (pos.datsz - pos.i) pos.i)
    match ← refill { pos with i := i } with
    | none => return none
    | some pos => takeLength (findLength fuel) pos

/-- The inner loop of the search for the end of the header; `left` is how far the index
is before `datsz - 2`. -/
def seekBlank (bp : Buffer Byte) : ℕ → ℕ → Option (Bool × ℕ)
  | 0, i => some (false, i)
  | left + 1, i => do
    if ← bp.agrees (fun a b => a == b) i [10, 13, 10] then some (true, i + 3)
    else seekBlank bp left (i + 1)

/-- The search for the end of the header. -/
def endOfHeader : ℕ → Position → Prog sig (Option Position)
  | 0, _ => .diverge
  | fuel + 1, pos => do
    let r ← inBounds (seekBlank pos.bp (pos.datsz - 2 - pos.i) pos.i)
    match ← refill { pos with i := r.2 } with
    | none => return none
    | some pos => if r.1 then return some pos else endOfHeader fuel pos

/-- Get more data if the body is not all there. It is read to where the body begins. -/
def getBody (len : ℤ) (pos : Position) : Prog sig (Option Position) :=
  if (pos.datsz : ℤ) - pos.i < len then getMore pos else .ret (some pos)

/-- The IPP header at the index. -/
def ippStatus (jobid : ℤ) (pos : Position) : Prog sig Bool := do
  let status ← inBounds (ntoh pos.bp (pos.i + 2) 2)
  let request ← inBounds (ntoh pos.bp (pos.i + 4) 4)
  if int32 request ≠ jobid then return false
  else return statclassOk status

/-- Go on with what was found, or go to `out`. -/
def orOut {α : Type} (p : Prog sig (Option α)) (next : α → Prog sig Bool) : Prog sig Bool := do
  match ← p with
  | none => return false
  | some a => next a

/-- What is done when the length of the body is known. -/
def judgeBody (fuel : ℕ) (jobid len : ℤ) (pos : Position) : Prog sig Bool :=
  orOut (refill pos) fun pos =>
  orOut (endOfHeader fuel pos) fun pos =>
  orOut (getBody len pos) (ippStatus jobid)

/-- What is done with a response whose code is one of success. -/
def judge (fuel : ℕ) (jobid : ℤ) (pos : Position) : Prog sig Bool :=
  orOut (findLength fuel pos) fun r => judgeBody fuel jobid r.2 r.1

/-- Log the string at the beginning of the buffer. -/
def logBuffer (bp : Buffer Byte) : Prog sig Unit := do
  let fmt ← inBounds (bp.takeWhile (fun b => b != 0) 0)
  logMsg fmt

/-- The loop over the responses. The buffer is allocated and not initialised before the
first one, and each response is read to its beginning. -/
def responses (fuel : ℕ) (jobid : ℤ) : ℕ → Buffer Byte → Prog sig Bool
  | 0, _ => .diverge
  | rounds + 1, bp => do
    let data ← tread bp.size
    if data = [] then return false
    else
      match ← inBounds (statusLine (bp.write 0 data)) with
      | none => do
        logBuffer (bp.write 0 data)
        responses fuel jobid rounds (bp.write 0 data)
      | some (bp, cp, code) =>
        if httpInfo code then responses fuel jobid rounds bp
        else if httpSuccess code then judge fuel jobid ⟨bp, cp, data.length⟩
        else do
          let _ ← inBounds (bp.set data.length 0)
          return false

/-- `memory` is what malloc leaves in the buffer. -/
def printerStatus (fuel : ℕ) (jobid : ℤ) (memory : ℕ → Byte) : Prog sig Bool :=
  responses fuel jobid fuel ⟨IOBUFSZ, memory⟩

/-- The connection, as the pieces in which the bytes come in. No read returns more bytes
than it asks for. -/
def connection (nbytes : ℕ) : List (List Byte) → List Byte × List (List Byte)
  | [] => ([], [])
  | piece :: pieces =>
    if piece.length ≤ nbytes then (piece, pieces)
    else (piece.take nbytes, piece.drop nbytes :: pieces)

end Apue.Printer
