import Apue.TransferLoops
import Apue.ByteFiles
import Apue.PrintQueue
import Mathlib.Data.List.AList

/-!
The print spooling daemon. Its threads are programs over the calls through which
they reach the spool directory, the queue of jobs, the job counter and their
sockets: a thread for every client that accepts a job, one thread that sends the
jobs to the printer, and the main thread, which fills the queue when the daemon
starts. The functions follow printd.c and util.c.

A file in the directories data and reqs is named by the job number that sprintf
writes as its name and atol reads back from it.
-/
namespace Apue.Print

open Programs Decimal ByteFiles DoublyLinked

def USERNM_MAX : ℕ := 64
def JOBNM_MAX : ℕ := 256
def IOBUFSZ : ℕ := 8192
def FILENMSZ : ℕ := 64
def PR_TEXT : ℕ := 1

/-- An error number, which is never 0. -/
inductive Errno
  | eio
  | etime
  | other (n : ℕ)
  deriving DecidableEq

def Errno.value : Errno → ℕ
  | eio => 5
  | etime => 62
  | other n => n + 1

/-- Four bytes, the most significant one first. -/
def be32 (n : ℕ) : List Byte :=
  [UInt8.ofNat (n / 2 ^ 24), UInt8.ofNat (n / 2 ^ 16), UInt8.ofNat (n / 2 ^ 8), UInt8.ofNat n]

/-- Four bytes, the least significant one first: the host's order. -/
def le32 (n : ℕ) : List Byte := (be32 n).reverse

/-- The number whose bytes are given, the most significant one first. -/
def ofBytes (bytes : List Byte) : ℕ := bytes.foldl (fun a b => 256 * a + b.toNat) 0

def htonl (n : ℕ) : ℕ := ofBytes (le32 n)

/-- `struct printreq`. -/
structure PrintReq where
  size : ℕ
  flags : ℕ
  usernm : List Byte
  jobnm : List Byte
  usernm_length : usernm.length = USERNM_MAX
  jobnm_length : jobnm.length = JOBNM_MAX

def SIZEOF_PRINTREQ : ℕ := 328

namespace PrintReq

/-- The request on its way from the client, with its numbers in network order. -/
def wire (req : PrintReq) : List Byte :=
  be32 req.size ++ be32 req.flags ++ req.usernm ++ req.jobnm

/-- The request as it lies in memory. -/
def image (req : PrintReq) : List Byte :=
  le32 req.size ++ le32 req.flags ++ req.usernm ++ req.jobnm

/-- The request whose bytes came from the network, after the two ntohl. -/
def ofWire (bytes : List Byte) (h : bytes.length = SIZEOF_PRINTREQ) : PrintReq where
  size := ofBytes (readAt bytes 0 4)
  flags := ofBytes (readAt bytes 4 4)
  usernm := readAt bytes 8 USERNM_MAX
  jobnm := readAt bytes 72 JOBNM_MAX
  usernm_length := by
    simp only [readAt, List.length_take, List.length_drop, h, SIZEOF_PRINTREQ, USERNM_MAX]
    rfl
  jobnm_length := by
    simp only [readAt, List.length_take, List.length_drop, h, SIZEOF_PRINTREQ, JOBNM_MAX]
    rfl

theorem length_image (req : PrintReq) : req.image.length = SIZEOF_PRINTREQ := by
  simp only [image, le32, be32, List.length_append, List.length_reverse, List.length_cons,
    List.length_nil, req.usernm_length, req.jobnm_length]
  rfl

end PrintReq

/-- The text of a response: strerror of a code, or the request ID. -/
inductive Msg
  | strerror (code : ℕ)
  | requestId (jobid : ℤ)
  deriving DecidableEq

/-- `struct printresp`, the code and the job ID as the client reads them. -/
structure PrintResp where
  retcode : ℕ
  jobid : ℤ
  msg : Msg
  deriving DecidableEq

inductive Dir
  | data
  | reqs
  deriving DecidableEq

/-- What the printer thread tries for a job once its data file is open. -/
inductive Effort
  | fstat
  | connect
  | sendJob
  | printerStatus

/-- How a job leaves the daemon. -/
inductive Fate
  | completed
  | canceled
  deriving DecidableEq

inductive Call
  | tread (nbytes : ℕ)
  | respond (res : PrintResp)
  | getNewjobno
  | creat (dir : Dir) (jobid : ℤ)
  | write (dir : Dir) (jobid : ℤ) (bytes : List Byte)
  | unlink (dir : Dir) (jobid : ℤ)
  | malloc (job : Job)
  | addJob (jp : ℕ)
  | takeJob
  | loadJob (jp : ℕ)
  | loadNextjob
  | writeJobfile (bytes : List Byte)
  | openData (jobid : ℤ)
  | effort (what : Effort) (job : Job)
  | replaceJob (jp : ℕ)
  | free (jp : ℕ) (fate : Fate)
  | opendir
  | readReq (name : ℤ)

def Call.Ret : Call → Type
  | tread _ => Except Errno (List Byte)
  | respond _ => Unit
  | getNewjobno => ℤ
  | creat _ _ => Option Errno
  | write _ _ _ => Except Errno ℕ
  | unlink _ _ => Unit
  | malloc _ => Option ℕ
  | addJob _ => Unit
  | takeJob => ℕ
  | loadJob _ => Job
  | loadNextjob => ℤ
  | writeJobfile _ => Bool
  | openData _ => Bool
  | effort _ _ => Bool
  | replaceJob _ => Unit
  | free _ _ => Unit
  | opendir => Option (List ℤ)
  | readReq _ => Option (Except Errno (List Byte))

abbrev sig : Signature := ⟨Call, Call.Ret⟩

def tread (nbytes : ℕ) : Prog sig (Except Errno (List Byte)) := .call (.tread nbytes) .ret
def respond (res : PrintResp) : Prog sig Unit := .call (.respond res) .ret
def getNewjobno : Prog sig ℤ := .call .getNewjobno .ret
def creat (dir : Dir) (jobid : ℤ) : Prog sig (Option Errno) := .call (.creat dir jobid) .ret
def write (dir : Dir) (jobid : ℤ) (bytes : List Byte) : Prog sig (Except Errno ℕ) :=
  .call (.write dir jobid bytes) .ret
def unlink (dir : Dir) (jobid : ℤ) : Prog sig Unit := .call (.unlink dir jobid) .ret

def treadn : ℕ → Prog sig (Except Errno (List Byte)) := Transfers.treadnWith tread

/-- The response to a request that is not accepted. -/
def reject (errno : Errno) : Prog sig Unit :=
  respond ⟨htonl errno.value, 0, .strerror (htonl errno.value)⟩

/-- The first four bytes of a PostScript file: `%!PS`. -/
def POSTSCRIPT : List Byte := [37, 33, 80, 83]

/-- The flags of a job whose first block is in the buffer. -/
def textFlag (buf : List Byte) (flags : ℕ) : ℕ :=
  if buf.take 4 = POSTSCRIPT then flags else flags ||| PR_TEXT

/-- The loop of client_thread that stores the file in the spool directory. It
ends alike at end of file and at an error of tread. `buf` is the buffer, which
is not initialised before the first read. -/
def receive : ℕ → ℤ → PrintReq → Bool → List Byte → Prog sig (Except Errno PrintReq)
  | 0, _, _, _, _ => .diverge
  | fuel + 1, jobid, req, first, buf => do
    match ← tread IOBUFSZ with
    | .error _ => return .ok req
    | .ok [] => return .ok req
    | .ok (b :: block) =>
      let buf := writeAt buf 0 (b :: block)
      let req := if first then { req with flags := textFlag buf req.flags } else req
      match ← write .data jobid (b :: block) with
      | .error e => return .error e
      | .ok nw =>
        if nw ≠ (b :: block).length then return .error .eio
        else receive fuel jobid req false buf

def addJobCall (job : Job) : Prog sig Unit :=
  .call (.malloc job) fun
    | none => .abort "malloc failed"
    | some jp => .call (.addJob jp) .ret

/-- The control file could not be written whole. -/
def discard (jobid : ℤ) (errno : Errno) : Prog sig Unit := do
  reject errno
  unlink .reqs jobid
  unlink .data jobid

/-- The last part of client_thread: the control file, the response and the queue. -/
def enterJob (jobid : ℤ) (req : PrintReq) : Prog sig Unit := do
  match ← creat .reqs jobid with
  | some e => do
    reject e
    unlink .data jobid
  | none =>
    match ← write .reqs jobid req.image with
    | .error e => discard jobid e
    | .ok nw =>
      if nw ≠ SIZEOF_PRINTREQ then discard jobid .eio
      else do
        respond ⟨0, jobid, .requestId jobid⟩
        addJobCall ⟨jobid, req.image⟩

/-- client_thread, once the header has arrived. -/
def acceptJob (fuel : ℕ) (buf : List Byte) (req : PrintReq) : Prog sig Unit := do
  let jobid ← getNewjobno
  match ← creat .data jobid with
  | some e => reject e
  | none =>
    match ← receive fuel jobid req true buf with
    | .error e => do
      reject e
      unlink .data jobid
    | .ok req => enterJob jobid req

def clientThread (fuel : ℕ) (buf : List Byte) : Prog sig Unit := do
  match ← treadn SIZEOF_PRINTREQ with
  | .error e => reject e
  | .ok bytes =>
    if h : bytes.length = SIZEOF_PRINTREQ then acceptJob fuel buf (PrintReq.ofWire bytes h)
    else reject .eio

/-- The number is read and formatted first and written then. -/
def updateJobno : Prog sig Unit :=
  .call .loadNextjob fun nextjob =>
    .call (.writeJobfile (decimalInt nextjob)) fun (ok : Bool) =>
      if ok then .ret () else .abort "can't update job file"

def effort (what : Effort) (job : Job) : Prog sig Bool := .call (.effort what job) .ret
def openData (jobid : ℤ) : Prog sig Bool := .call (.openData jobid) .ret
def free (jp : ℕ) (fate : Fate) : Prog sig Unit := .call (.free jp fate) .ret

/-- The connection to the printer, the request with the file, and the answer. -/
def sendToPrinter (job : Job) : Prog sig Bool := do
  let connected ← effort .connect job
  if connected then
    let sent ← effort .sendJob job
    if sent then effort .printerStatus job else return false
  else return false

/-- The job is sent, and either it is done with or it goes back to the head of
the queue. -/
def printJob (jp : ℕ) (job : Job) : Prog sig Unit := do
  let printed ← sendToPrinter job
  if printed then
    unlink .data job.jobid
    unlink .reqs job.jobid
    free jp .completed
  else .call (.replaceJob jp) .ret

/-- One round of the loop of printer_thread. -/
def printerRound : Prog sig Unit :=
  .call .takeJob fun jp => .call (.loadJob jp) fun job => do
    updateJobno
    let opened ← openData job.jobid
    if opened then
      let known ← effort .fstat job
      if known then printJob jp job else free jp .canceled
    else free jp .canceled

/-- A control file that cannot be read whole. -/
def dropEntry (name : ℤ) : Prog sig Unit := do
  unlink .reqs name
  unlink .data name

/-- One entry of the directory reqs; it is skipped if it cannot be opened. -/
def queueEntry (name : ℤ) : Prog sig Unit :=
  .call (.readReq name) fun
    | none => .ret ()
    | some (.error _) => dropEntry name
    | some (.ok req) =>
      if req.length ≠ SIZEOF_PRINTREQ then dropEntry name else addJobCall ⟨name, req⟩

/-- The loop of build_qonstart over the entries that readdir returns. -/
def queueEntries : List ℤ → Prog sig Unit
  | [] => return ()
  | name :: names => do
    queueEntry name
    queueEntries names

def buildQonstart : Prog sig Unit :=
  .call .opendir fun
    | none => .ret ()
    | some names => queueEntries names

/-- The calls that do not concern job numbers, directory entries or the queue. -/
def Call.Transfer : Call → Prop
  | tread _ => True
  | respond _ => True
  | write _ _ _ => True
  | loadNextjob => True
  | writeJobfile _ => True
  | openData _ => True
  | effort _ _ => True
  | _ => False

theorem only_treadn (nbytes : ℕ) : (treadn nbytes).Only Call.Transfer := by
  have hread : ∀ n, (tread n).Only Call.Transfer := fun _ => ⟨trivial, fun _ => trivial⟩
  exact Transfers.only_treadnLoop hread _ _ _

theorem only_receive (fuel : ℕ) (jobid : ℤ) (req : PrintReq) (first : Bool) (buf : List Byte) :
    (receive fuel jobid req first buf).Only Call.Transfer := by
  induction fuel generalizing req first buf with
  | zero => trivial
  | succ fuel ih =>
    refine Prog.Only.bind ⟨trivial, fun _ => trivial⟩ fun r => ?_
    rcases r with e | (_ | ⟨b, block⟩)
    · trivial
    · trivial
    · refine Prog.Only.bind ⟨trivial, fun _ => trivial⟩ fun r => ?_
      rcases r with e | nw
      · trivial
      · exact Prog.Only.ite trivial (ih _ _ _)

theorem only_updateJobno : updateJobno.Only Call.Transfer := by
  refine ⟨trivial, fun nextjob => ⟨trivial, fun ok => ?_⟩⟩
  rcases ok with _ | _ <;> trivial

theorem only_sendToPrinter (job : Job) : (sendToPrinter job).Only Call.Transfer := by
  refine Prog.Only.bind ⟨trivial, fun _ => trivial⟩ fun connected => ?_
  rcases connected with _ | _
  · trivial
  · refine Prog.Only.bind ⟨trivial, fun _ => trivial⟩ fun sent => ?_
    rcases sent with _ | _
    · trivial
    · exact ⟨trivial, fun _ => trivial⟩

end Apue.Print
