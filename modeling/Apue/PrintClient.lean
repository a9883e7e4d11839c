import Apue.PrintModel

/-!
The command print, as far as it talks to the daemon: submit_file builds the header,
sends it and the file, and reads the response. A read of the file that fails is not
noticed: its result -1 is passed on to writen as the size, which fails with -1 too,
and the loop goes on. Whatever happens, what has been sent is a first part of the
header followed by the file.
-/
namespace Apue.Print

open Programs Decimal

inductive ClientCall
  | write (bytes : List Byte)
  | read (nbytes : ℕ)
  | readResp

/-- A write fails without a number, and so does the response. -/
def ClientCall.Ret : ClientCall → Type
  | write _ => Option ℕ
  | read _ => Except Errno (List Byte)
  | readResp => Option PrintResp

abbrev clientSig : Signature := ⟨ClientCall, ClientCall.Ret⟩

def clientWrite (bytes : List Byte) : Prog clientSig (Option ℕ) := .call (.write bytes) .ret

def writen : List Byte → Prog clientSig ℤ := Transfers.writenWith clientWrite

/-- writen, and the end of the command if not everything was written. -/
def sendWhole (bytes : List Byte) (next : Prog clientSig (Option ℤ)) :
    Prog clientSig (Option ℤ) := do
  let nw ← writen bytes
  if nw ≠ bytes.length then
    if nw < 0 then .abort "can't write to print server" else .abort "short write to print server"
  else next

/-- The job number, if the job was not rejected. -/
def readResponse : Prog clientSig (Option ℤ) :=
  .call .readResp fun
    | none => .abort "can't read response from server"
    | some res => if res.retcode ≠ 0 then .ret none else .ret (some res.jobid)

def sendFile : ℕ → Prog clientSig (Option ℤ)
  | 0 => .diverge
  | fuel + 1 =>
    .call (.read IOBUFSZ) fun
      | .error _ => sendFile fuel
      | .ok [] => readResponse
      | .ok (b :: block) => sendWhole (b :: block) (sendFile fuel)

/-- What a user name or a job name is copied into, with what was there before. -/
def fill (size : ℕ) (text junk : List Byte) : List Byte :=
  ((text ++ [0] ++ junk ++ List.replicate size 0).take size)

theorem length_fill (size : ℕ) (text junk : List Byte) : (fill size text junk).length = size := by
  simp only [fill, List.length_take, List.length_append, List.length_replicate]
  omega

/-- The name of the user; strncpy fills the rest of its place with nulls. -/
def userName (user : Option (List Byte)) (junk : List Byte) : List Byte :=
  match user with
  | none => fill USERNM_MAX [117, 110, 107, 110, 111, 119, 110] junk
  | some name => fill USERNM_MAX (name.take (USERNM_MAX - 1)) []

/-- Only the end of a name that is too long is sent, after `... `. -/
def jobName (fname junk : List Byte) : List Byte :=
  if JOBNM_MAX ≤ fname.length then
    fill JOBNM_MAX ([46, 46, 46, 32] ++ fname.drop (fname.length - JOBNM_MAX + 5)) junk
  else fill JOBNM_MAX fname junk

/-- The header. `junk` is what the memory held before. -/
def printReq (user : Option (List Byte)) (fname : List Byte) (nbytes : ℕ) (text : Bool)
    (junk : List Byte) : PrintReq where
  size := nbytes
  flags := if text then PR_TEXT else 0
  usernm := userName user junk
  jobnm := jobName fname junk
  usernm_length := by
    unfold userName
    split <;> exact length_fill ..
  jobnm_length := by
    unfold jobName
    split <;> exact length_fill ..

def submitFile (fuel : ℕ) (req : PrintReq) : Prog clientSig (Option ℤ) :=
  sendWhole req.wire (sendFile fuel)

/-- What has been sent and what has been read of the file. -/
structure Sent where
  sent : List Byte
  taken : List Byte

/-- What is written continues what has been sent. -/
def clientRules (header : List Byte) : Rules clientSig Sent where
  pre
    | .write bytes, g => header ++ g.taken = g.sent ++ bytes
    | _, _ => True
  post
    | .write bytes, some n, g => { g with sent := g.sent ++ bytes.take n }
    | .read _, .ok block, g => { g with taken := g.taken ++ block }
    | _, _, g => g

variable {header : List Byte} {g : Sent}

theorem obeys_writenLoop {n fuel : ℕ} {left : List Byte} (hn : left.length ≤ n)
    (hg : header ++ g.taken = g.sent ++ left) :
    (clientRules header).Obeys (Transfers.writenLoop clientWrite n fuel left) g fun r g' =>
      r = n → header ++ g'.taken = g'.sent := by
  induction fuel generalizing left g with
  | zero =>
    cases left with
    | nil =>
      intro _
      rw [hg, List.append_nil]
    | cons b left => trivial
  | succ fuel ih =>
    cases left with
    | nil =>
      intro _
      rw [hg, List.append_nil]
    | cons b left =>
      rw [List.length_cons] at hn
      refine ⟨hg, fun r => ?_⟩
      cases r with
      | none =>
        simp only
        split
        · intro h
          omega
        · intro h
          rw [List.length_cons] at h
          omega
      | some m =>
        cases m with
        | zero =>
          intro h
          rw [List.length_cons] at h
          omega
        | succ m =>
          refine ih ?_ ?_
          · simp only [List.length_drop, List.length_cons]
            omega
          · simp only [clientRules, List.append_assoc, List.take_append_drop]
            exact hg

theorem obeys_sendWhole {bytes : List Byte} {next : Prog clientSig (Option ℤ)}
    (hg : header ++ g.taken = g.sent ++ bytes)
    (hnext : ∀ g', header ++ g'.taken = g'.sent → (clientRules header).Obeys next g' fun _ _ => True) :
    (clientRules header).Obeys (sendWhole bytes next) g fun _ _ => True := by
  refine Rules.Obeys.bind ((obeys_writenLoop (le_refl _) hg).mono fun nw g' hnw => ?_)
  split
  · split <;> trivial
  · rename_i h
    exact hnext g' (hnw (not_not.mp h))

theorem obeys_sendFile {fuel : ℕ} (hg : header ++ g.taken = g.sent) :
    (clientRules header).Obeys (sendFile fuel) g fun _ _ => True := by
  induction fuel generalizing g with
  | zero => trivial
  | succ fuel ih =>
    refine ⟨trivial, fun r => ?_⟩
    cases r with
    | error e => exact ih hg
    | ok block =>
      cases block with
      | nil =>
        refine ⟨trivial, fun res => ?_⟩
        cases res with
        | none => trivial
        | some res =>
          simp only
          split <;> trivial
      | cons b block =>
        refine obeys_sendWhole ?_ fun g' hg' => ih hg'
        simp only [clientRules]
        rw [← List.append_assoc, hg]

/-- Everything that submit_file sends continues the header and the file. -/
theorem obeys_submitFile (fuel : ℕ) (req : PrintReq) :
    (clientRules req.wire).Obeys (submitFile fuel req) ⟨[], []⟩ fun _ _ => True := by
  refine obeys_sendWhole ?_ fun g' hg' => obeys_sendFile hg'
  exact List.append_nil _

end Apue.Print
