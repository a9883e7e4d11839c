import Apue.PrintAccept
import Apue.PrintClient

/-!
A file on its way from the command print to the spool directory. The client thread
of the daemon takes every end of the data for the end of the file: the end of the
stream, an error and a timeout of tread alike, and it does not compare what has
arrived with the size in the header. So the job that it accepts is whole only if
nothing but the end of the file ends the data.
-/
namespace Apue.Print

open Programs Decimal ByteFiles

/-- The command, the client thread and what is between them: the rest of the file,
the bytes on their way, whether the client has closed its socket, and the bytes that
have arrived, the data file and the response. -/
structure Delivery where
  client : Prog clientSig (Option ℤ)
  server : Prog sig Unit
  rest : List Byte
  sock : List Byte
  closed : Bool
  received : List Byte
  data : Option (List Byte)
  answer : Option PrintResp

namespace Delivery

/-- How a call ends: with `n` bytes or the number `n`, with an error, or at the end
of the file or the stream. -/
inductive Choice
  | ok (n : ℕ)
  | fail (e : Errno)
  | eof

/-- The side that moves. The client may also die. -/
inductive Turn
  | client (choice : Choice)
  | die
  | server (choice : Choice)

def clientPerform (choice : Choice) : (c : ClientCall) → Delivery → Option (c.Ret × Delivery)
  | .write bytes, s =>
    match choice with
    | .ok n =>
      if 0 < n ∧ n ≤ bytes.length then some (some n, { s with sock := s.sock ++ bytes.take n })
      else none
    | .fail _ => some (none, s)
    | .eof => none
  | .read nbytes, s =>
    match choice with
    | .ok n =>
      if 0 < n ∧ n ≤ nbytes ∧ n ≤ s.rest.length then
        some (.ok (s.rest.take n), { s with rest := s.rest.drop n })
      else none
    | .fail e => some (.error e, s)
    | .eof => if s.rest = [] then some (.ok [], s) else none
  | .readResp, s =>
    match choice with
    | .ok _ => s.answer.map fun res => (some res, s)
    | _ => some (none, s)

/-- A file in the directory data is the one of the job. -/
def setData (dir : Dir) (data : Option (List Byte)) (s : Delivery) : Delivery :=
  match dir with
  | .data => { s with data := data }
  | .reqs => s

/-- tread fails when the time is up, when the connection is reset and so on. -/
def serverPerform (choice : Choice) : (c : Call) → Delivery → Option (c.Ret × Delivery)
  | .tread nbytes, s =>
    match choice with
    | .ok n =>
      if 0 < n ∧ n ≤ nbytes ∧ n ≤ s.sock.length then
        some (.ok (s.sock.take n), { s with
          sock := s.sock.drop n
          received := s.received ++ s.sock.take n })
      else none
    | .fail e => if e.isStrange then none else some (.error e, s)
    | .eof => if s.closed = true ∧ s.sock = [] then some (.ok [], s) else none
  | .respond res, s => some ((), { s with answer := some res })
  | .getNewjobno, s =>
    match choice with
    | .ok n => some ((n : ℤ), s)
    | _ => none
  | .creat dir _, s =>
    match choice with
    | .ok _ => some (none, s.setData dir (some []))
    | .fail e => if e.isStrange then none else some (some e, s)
    | .eof => none
  | .write dir _ bytes, s =>
    match choice with
    | .ok n =>
      if n ≤ bytes.length then
        some (.ok n, s.setData dir (s.data.map fun d => d ++ bytes.take n))
      else none
    | .fail e => if e.isStrange then none else some (.error e, s)
    | .eof => none
  | .unlink dir _, s => some ((), s.setData dir none)
  | .malloc _, s =>
    match choice with
    | .ok n => some (some n, s)
    | _ => some (none, s)
  | .addJob _, s => some ((), s)
  | _, _ => none

def step (s : Delivery) : Turn → Option Delivery
  | .client choice =>
    match s.client with
    | .call c k => do
      let (r, s') ← clientPerform choice c s
      return { s' with client := k r }
    | _ => none
  | .die => some { s with client := .abort "killed", closed := true }
  | .server choice =>
    match s.server with
    | .call c k => do
      let (r, s') ← serverPerform choice c s
      return { s' with server := k r }
    | _ => none

def start (fuel : ℕ) (buf : List Byte) (req : PrintReq) (file : List Byte) : Delivery :=
  ⟨submitFile fuel req, clientThread fuel buf, file, [], false, [], none, none⟩

/-- tread fails, or finds the end of the stream, after the header has been received
and before all of the file has. -/
def cutShort (file : List Byte) (s : Delivery) : Turn → Bool
  | .server (.ok _) => false
  | .server _ =>
    match s.server with
    | .call (.tread _) _ => SIZEOF_PRINTREQ ≤ s.received.length &&
        s.received.length < SIZEOF_PRINTREQ + file.length
    | _ => false
  | _ => false

/-- What is on its way and what has arrived is what the client has sent. -/
def ClientOk (req : PrintReq) (file : List Byte) (s : Delivery) : Prop :=
  ∃ taken, file = taken ++ s.rest ∧ s.received ++ s.sock <+: req.wire ++ taken ∧
    (clientRules req.wire).Obeys s.client ⟨s.received ++ s.sock, taken⟩ fun _ _ => True

/-- The client thread follows its rules. If the data has ended, all of the file has
arrived. -/
def ServerOk (file : List Byte) (s : Delivery) : Prop :=
  ∃ g : Spooled, g.received = s.received ∧ g.data = s.data ∧ g.strange = false ∧
    serverRules.Obeys s.server g (fun _ _ => True) ∧
    (g.ended = true → SIZEOF_PRINTREQ + file.length ≤ s.received.length) ∧
    (g.accepted = true → g.Stored) ∧
    ∀ res, s.answer = some res → res.retcode = 0 → g.accepted = true

variable {req : PrintReq} {file : List Byte} {s s' : Delivery} {choice : Choice}

theorem length_wire (req : PrintReq) : req.wire.length = SIZEOF_PRINTREQ := by
  simp only [PrintReq.wire, be32, List.length_append, List.length_cons, List.length_nil,
    req.usernm_length, req.jobnm_length]
  rfl

theorem clientOk_start (fuel : ℕ) (buf : List Byte) (req : PrintReq) (file : List Byte) :
    (start fuel buf req file).ClientOk req file :=
  ⟨[], rfl, List.nil_prefix, obeys_submitFile fuel req⟩

theorem serverOk_start (fuel : ℕ) (buf : List Byte) (req : PrintReq) (file : List Byte) :
    (start fuel buf req file).ServerOk file :=
  ⟨⟨[], none, false, false, false⟩, rfl, rfl, rfl, obeys_clientThread fuel buf, nofun, nofun, nofun⟩

/-- A call of the client changes only the rest of the file and what is on its way. -/
theorem clientPerform_frame {c : ClientCall} {r : c.Ret}
    (h : clientPerform choice c s = some (r, s')) :
    s' = { s with rest := s'.rest, sock := s'.sock } := by
  cases c with
  | write bytes =>
    cases choice with
    | ok n =>
      simp only [clientPerform] at h
      split at h <;> cases h
      rfl
    | fail e =>
      cases h
      rfl
    | eof => cases h
  | read nbytes =>
    cases choice with
    | ok n =>
      simp only [clientPerform] at h
      split at h <;> cases h
      rfl
    | fail e =>
      cases h
      rfl
    | eof =>
      simp only [clientPerform] at h
      split at h <;> cases h
      rfl
  | readResp =>
    cases choice with
    | ok n =>
      obtain ⟨res, -, hres⟩ := Option.map_eq_some_iff.mp h
      cases hres
      rfl
    | fail e =>
      cases h
      rfl
    | eof =>
      cases h
      rfl

theorem ClientOk.client (h : s.ClientOk req file) {c : ClientCall}
    {k : c.Ret → Prog clientSig (Option ℤ)} {r : c.Ret} (hcall : s.client = .call c k)
    (hperf : clientPerform choice c s = some (r, s')) :
    ClientOk req file { s' with client := k r } := by
  obtain ⟨taken, hfile, hsent, hobeys⟩ := h
  rw [hcall] at hobeys
  obtain ⟨hpre, hobeys⟩ := hobeys
  specialize hobeys r
  cases c with
  | write bytes =>
    have hpre : req.wire ++ taken = s.received ++ s.sock ++ bytes := hpre
    cases choice with
    | ok n =>
      simp only [clientPerform] at hperf
      split at hperf <;> cases hperf
      refine ⟨taken, hfile, ?_, ?_⟩
      · rw [hpre, ← List.append_assoc]
        exact (List.prefix_append_right_inj _).mpr (List.take_prefix n bytes)
      · simp only [clientRules, List.append_assoc] at hobeys ⊢
        exact hobeys
    | fail e =>
      cases hperf
      exact ⟨taken, hfile, hsent, hobeys⟩
    | eof => cases hperf
  | read nbytes =>
    cases choice with
    | ok n =>
      simp only [clientPerform] at hperf
      split at hperf <;> cases hperf
      refine ⟨taken ++ s.rest.take n, ?_, ?_, hobeys⟩
      · simp only [List.append_assoc, List.take_append_drop]
        exact hfile
      · rw [← List.append_assoc]
        exact hsent.trans (List.prefix_append _ _)
    | fail e =>
      cases hperf
      exact ⟨taken, hfile, hsent, hobeys⟩
    | eof =>
      simp only [clientPerform] at hperf
      split at hperf <;> cases hperf
      refine ⟨taken, hfile, hsent, ?_⟩
      simp only [clientRules, List.append_nil] at hobeys
      exact hobeys
  | readResp =>
    cases choice with
    | ok n =>
      obtain ⟨res, -, hres⟩ := Option.map_eq_some_iff.mp hperf
      cases hres
      exact ⟨taken, hfile, hsent, hobeys⟩
    | fail e =>
      cases hperf
      exact ⟨taken, hfile, hsent, hobeys⟩
    | eof =>
      cases hperf
      exact ⟨taken, hfile, hsent, hobeys⟩

theorem ServerOk.client (h : s.ServerOk file) {c : ClientCall} {r : c.Ret}
    {client : Prog clientSig (Option ℤ)} (hperf : clientPerform choice c s = some (r, s')) :
    ServerOk file { s' with client := client } := by
  rw [clientPerform_frame hperf]
  exact h

theorem setData_frame (dir : Dir) (data : Option (List Byte)) (s : Delivery) :
    s.setData dir data = { s with data := (s.setData dir data).data } := by
  cases dir <;> rfl

/-- A call of the client thread takes bytes from the stream or changes nothing of what
the client sees of it. -/
theorem serverPerform_sent {c : Call} {r : c.Ret} (h : serverPerform choice c s = some (r, s')) :
    s'.received ++ s'.sock = s.received ++ s.sock ∧ s'.rest = s.rest ∧ s'.client = s.client := by
  cases c with
  | tread nbytes =>
    cases choice with
    | ok n =>
      simp only [serverPerform] at h
      split at h <;> cases h
      refine ⟨?_, rfl, rfl⟩
      simp only [List.append_assoc, List.take_append_drop]
    | fail e =>
      simp only [serverPerform] at h
      split at h <;> cases h
      exact ⟨rfl, rfl, rfl⟩
    | eof =>
      simp only [serverPerform] at h
      split at h <;> cases h
      exact ⟨rfl, rfl, rfl⟩
  | respond res =>
    cases h
    exact ⟨rfl, rfl, rfl⟩
  | getNewjobno =>
    cases choice with
    | ok n =>
      cases h
      exact ⟨rfl, rfl, rfl⟩
    | fail e => cases h
    | eof => cases h
  | creat dir jobid =>
    cases choice with
    | ok n =>
      cases h
      rw [setData_frame]
      exact ⟨rfl, rfl, rfl⟩
    | fail e =>
      simp only [serverPerform] at h
      split at h <;> cases h
      exact ⟨rfl, rfl, rfl⟩
    | eof => cases h
  | write dir jobid bytes =>
    cases choice with
    | ok n =>
      simp only [serverPerform] at h
      split at h <;> cases h
      rw [setData_frame]
      exact ⟨rfl, rfl, rfl⟩
    | fail e =>
      simp only [serverPerform] at h
      split at h <;> cases h
      exact ⟨rfl, rfl, rfl⟩
    | eof => cases h
  | unlink dir jobid =>
    cases h
    rw [setData_frame]
    exact ⟨rfl, rfl, rfl⟩
  | malloc job =>
    cases choice <;> cases h <;> exact ⟨rfl, rfl, rfl⟩
  | addJob jp =>
    cases h
    exact ⟨rfl, rfl, rfl⟩
  | takeJob | loadJob | loadNextjob | writeJobfile | openData | effort | replaceJob | free | opendir |
      readReq =>
    cases h

theorem ClientOk.server (h : s.ClientOk req file) {c : Call} {r : c.Ret} {server : Prog sig Unit}
    (hperf : serverPerform choice c s = some (r, s')) :
    ClientOk req file { s' with server := server } := by
  obtain ⟨taken, hfile, hsent, hobeys⟩ := h
  obtain ⟨hsame, hrest, hclient⟩ := serverPerform_sent hperf
  exact ⟨taken, hrest ▸ hfile, hsame ▸ hsent, by rw [hclient, hsame]; exact hobeys⟩

theorem ServerOk.server (h : s.ServerOk file) {c : Call} {k : c.Ret → Prog sig Unit} {r : c.Ret}
    (hcall : s.server = .call c k) (hperf : serverPerform choice c s = some (r, s'))
    (hcut : s.cutShort file (.server choice) = false) :
    ServerOk file { s' with server := k r } := by
  obtain ⟨g, hreceived, hdata, hstrange, hobeys, hended, haccepted, hanswer⟩ := h
  rw [hcall] at hobeys
  obtain ⟨hpre, hobeys⟩ := hobeys
  specialize hobeys r
  -- a call that fails changes nothing
  have hfail : ∀ e : Errno, ¬ e.isStrange = true → ∀ server : Prog sig Unit,
      serverRules.Obeys server { g with strange := g.strange || e.isStrange } (fun _ _ => True) →
      ServerOk file { s with server := server } := by
    intro e hne server hserver
    refine ⟨{ g with strange := g.strange || e.isStrange }, hreceived, hdata, ?_, hserver, hended,
      fun he => ⟨(haccepted he).header, (haccepted he).data, (haccepted he).ended⟩, hanswer⟩
    rw [hstrange, Bool.false_or]
    exact Bool.eq_false_iff.mpr hne
  -- the end of the data
  have hcut' : ∀ nbytes, c = .tread nbytes → (∀ n, choice ≠ .ok n) →
      (g.ended || decide (SIZEOF_PRINTREQ ≤ g.received.length)) = true →
      SIZEOF_PRINTREQ + file.length ≤ s.received.length := by
    rintro nbytes rfl hne he
    rcases Bool.or_eq_true_iff.mp he with he | he
    · exact hended he
    · rw [cutShort.eq_def] at hcut
      cases choice with
      | ok n => exact absurd rfl (hne n)
      | fail e =>
        simp only [hcall, Bool.and_eq_false_iff, decide_eq_false_iff_not] at hcut
        have := of_decide_eq_true he
        rw [hreceived] at this
        omega
      | eof =>
        simp only [hcall, Bool.and_eq_false_iff, decide_eq_false_iff_not] at hcut
        have := of_decide_eq_true he
        rw [hreceived] at this
        omega
  cases c with
  | tread nbytes =>
    obtain ⟨hnot, hnacc⟩ := hpre hstrange
    cases choice with
    | ok n =>
      simp only [serverPerform] at hperf
      split at hperf <;> cases hperf
      rename_i hn
      obtain ⟨b, block, hblock⟩ : ∃ b block, s.sock.take n = b :: block := by
        refine List.exists_cons_of_ne_nil fun hnil => ?_
        rcases List.take_eq_nil_iff.mp hnil with h0 | h0
        · omega
        · rw [h0] at hn
          simp at hn
          omega
      rw [hblock] at hobeys ⊢
      exact ⟨{ g with received := g.received ++ b :: block }, congrArg (· ++ b :: block) hreceived,
        hdata, hstrange, hobeys, fun he => absurd (hnot.symm.trans he) nofun,
        fun he => absurd (hnacc.symm.trans he) nofun, hanswer⟩
    | fail e =>
      simp only [serverPerform] at hperf
      split at hperf <;> cases hperf
      rename_i hne
      have hfine : (g.strange || e.isStrange) = false := by
        rw [hstrange, Bool.false_or]
        exact Bool.eq_false_iff.mpr hne
      exact ⟨{ g with
          ended := g.ended || SIZEOF_PRINTREQ ≤ g.received.length
          strange := g.strange || e.isStrange }, hreceived, hdata, hfine, hobeys,
        hcut' nbytes rfl (fun _ => nofun), fun he => absurd (hnacc.symm.trans he) nofun, hanswer⟩
    | eof =>
      simp only [serverPerform] at hperf
      split at hperf <;> cases hperf
      exact ⟨{ g with ended := g.ended || SIZEOF_PRINTREQ ≤ g.received.length }, hreceived, hdata,
        hstrange, hobeys, hcut' nbytes rfl (fun _ => nofun),
        fun he => absurd (hnacc.symm.trans he) nofun, hanswer⟩
  | respond res =>
    cases hperf
    have hstored : (g.accepted || res.retcode == 0) = true → g.Stored := by
      intro he
      rcases Bool.or_eq_true_iff.mp he with he | he
      · exact haccepted he
      · exact hpre hstrange (eq_of_beq he)
    refine ⟨{ g with accepted := g.accepted || res.retcode == 0 }, hreceived, hdata, hstrange, hobeys,
      hended, fun he => ⟨(hstored he).header, (hstored he).data, (hstored he).ended⟩,
      fun res' hres hzero => ?_⟩
    cases hres
    simp only [hzero, beq_self_eq_true, Bool.or_true]
  | getNewjobno =>
    cases choice with
    | ok n =>
      cases hperf
      exact ⟨g, hreceived, hdata, hstrange, hobeys, hended, haccepted, hanswer⟩
    | fail e => cases hperf
    | eof => cases hperf
  | creat dir jobid =>
    cases choice with
    | ok n =>
      cases hperf
      cases dir with
      | data =>
        have hnacc := hpre hstrange
        exact ⟨{ g with data := some [] }, hreceived, rfl, hstrange, hobeys, hended,
          fun he => absurd (hnacc.symm.trans he) nofun, hanswer⟩
      | reqs => exact ⟨g, hreceived, hdata, hstrange, hobeys, hended, haccepted, hanswer⟩
    | fail e =>
      simp only [serverPerform] at hperf
      split at hperf <;> cases hperf
      rename_i hne
      have hobeys' : serverRules.Obeys (k (some e)) { g with strange := g.strange || e.isStrange }
          fun _ _ => True := by
        cases dir <;> exact hobeys
      exact hfail e hne _ hobeys'
    | eof => cases hperf
  | write dir jobid bytes =>
    cases choice with
    | ok n =>
      simp only [serverPerform] at hperf
      split at hperf <;> cases hperf
      cases dir with
      | data =>
        have hnacc := hpre hstrange
        refine ⟨{ g with data := g.data.map fun d => d ++ bytes.take n }, hreceived, ?_, hstrange,
          hobeys, hended, fun he => absurd (hnacc.symm.trans he) nofun, hanswer⟩
        simp only [hdata, setData]
      | reqs => exact ⟨g, hreceived, hdata, hstrange, hobeys, hended, haccepted, hanswer⟩
    | fail e =>
      simp only [serverPerform] at hperf
      split at hperf <;> cases hperf
      rename_i hne
      have hobeys' : serverRules.Obeys (k (.error e)) { g with strange := g.strange || e.isStrange }
          fun _ _ => True := by
        cases dir <;> exact hobeys
      exact hfail e hne _ hobeys'
    | eof => cases hperf
  | unlink dir jobid =>
    cases hperf
    cases dir with
    | data =>
      have hnacc := hpre hstrange
      exact ⟨{ g with data := none }, hreceived, rfl, hstrange, hobeys, hended,
        fun he => absurd (hnacc.symm.trans he) nofun, hanswer⟩
    | reqs => exact ⟨g, hreceived, hdata, hstrange, hobeys, hended, haccepted, hanswer⟩
  | malloc job =>
    cases choice <;> cases hperf <;>
      exact ⟨g, hreceived, hdata, hstrange, hobeys, hended, haccepted, hanswer⟩
  | addJob jp =>
    cases hperf
    exact ⟨g, hreceived, hdata, hstrange, hobeys, hended, haccepted, hanswer⟩
  | takeJob | loadJob | loadNextjob | writeJobfile | openData | effort | replaceJob | free | opendir |
      readReq =>
    cases hperf

theorem step_ok {turn : Turn} (hclient : s.ClientOk req file) (hserver : s.ServerOk file)
    (hs : s.step turn = some s') (hcut : s.cutShort file turn = false) :
    s'.ClientOk req file ∧ s'.ServerOk file := by
  cases turn with
  | client choice =>
    simp only [step] at hs
    split at hs
    · rename_i c k hcall
      obtain ⟨⟨r, s₁⟩, hperf, hs⟩ := Option.bind_eq_some_iff.mp hs
      cases hs
      exact ⟨hclient.client hcall hperf, hserver.client hperf⟩
    · cases hs
  | die =>
    cases hs
    obtain ⟨taken, hfile, hsent, -⟩ := hclient
    exact ⟨⟨taken, hfile, hsent, trivial⟩, hserver⟩
  | server choice =>
    simp only [step] at hs
    split at hs
    · rename_i c k hcall
      obtain ⟨⟨r, s₁⟩, hperf, hs⟩ := Option.bind_eq_some_iff.mp hs
      cases hs
      exact ⟨hclient.server hperf, hserver.server hcall hperf hcut⟩
    · cases hs

theorem steps_ok {turns : List Turn} (hclient : s.ClientOk req file) (hserver : s.ServerOk file)
    (hs : steps (fun s turn => if s.cutShort file turn then none else s.step turn) turns s = some s') :
    s'.ClientOk req file ∧ s'.ServerOk file := by
  induction turns generalizing s with
  | nil =>
    obtain rfl := Option.some.inj hs
    exact ⟨hclient, hserver⟩
  | cons turn turns ih =>
    obtain ⟨s₁, hs₁, hs⟩ := Option.bind_eq_some_iff.mp hs
    simp only at hs₁
    split at hs₁
    · cases hs₁
    · rename_i hcut
      obtain ⟨hclient₁, hserver₁⟩ := step_ok hclient hserver hs₁ (Bool.eq_false_iff.mpr hcut)
      exact ih hclient₁ hserver₁ hs

/-- A job that has been accepted is spooled as a whole, and the size in its header
is that of the file. -/
def Whole (file : List Byte) (s : Delivery) : Prop :=
  s.data = some file ∧ ∃ h, (PrintReq.ofWire (s.received.take SIZEOF_PRINTREQ) h).size = file.length

theorem size_ofWire {req : PrintReq} {bytes : List Byte} {h : bytes.length = SIZEOF_PRINTREQ}
    (hbytes : bytes = req.wire) : (PrintReq.ofWire bytes h).size = req.size % 2 ^ 32 := by
  subst hbytes
  have hread : readAt req.wire 0 4 = be32 req.size := by
    simp only [readAt, List.drop_zero, PrintReq.wire, List.append_assoc]
    exact List.take_left' rfl
  rw [PrintReq.ofWire, hread, ofBytes_be32]

/-- In every run in which the data does not end before all of the file has arrived: if
the file is shorter than 2^32 bytes and the answer is zero, the data file is the
client's file and its length is the size in the header. -/
theorem spooled_whole {user : Option (List Byte)} {fname junk buf file : List Byte} {text : Bool}
    {fuel : ℕ} {turns : List Turn} {s : Delivery} {res : PrintResp} (hsmall : file.length < 2 ^ 32)
    (hs : steps (fun s turn => if s.cutShort file turn then none else s.step turn) turns
      (start fuel buf (printReq user fname file.length text junk) file) = some s)
    (hres : s.answer = some res) (hzero : res.retcode = 0) : s.Whole file := by
  obtain ⟨req, hreq⟩ : ∃ r, r = printReq user fname file.length text junk := ⟨_, rfl⟩
  rw [← hreq] at hs
  obtain ⟨hclient, hserver⟩ :=
    steps_ok (clientOk_start fuel buf req file) (serverOk_start fuel buf req file) hs
  obtain ⟨taken, hfile, hsent, -⟩ := hclient
  obtain ⟨g, hreceived, hdata, -, -, hended, haccepted, hanswer⟩ := hserver
  have hstored := haccepted (hanswer res hres hzero)
  have hall : s.received = req.wire ++ file := by
    have hprefix : s.received <+: req.wire ++ file := by
      refine (List.prefix_append s.received s.sock).trans (hsent.trans ?_)
      rw [hfile, ← List.append_assoc]
      exact List.prefix_append _ _
    refine hprefix.eq_of_length_le ?_
    rw [List.length_append, length_wire]
    exact hended hstored.ended
  have hheader : s.received.take SIZEOF_PRINTREQ = req.wire := by
    rw [hall]
    exact List.take_left' (length_wire req)
  refine ⟨?_, by rw [hheader]; exact length_wire req, ?_⟩
  · rw [← hdata, hstored.data, hreceived, hall]
    exact congrArg some (List.drop_left' (length_wire req))
  · rw [size_ofWire hheader, hreq]
    exact Nat.mod_eq_of_lt hsmall

/-- The file is sent and received in two pieces, and a timeout ends the data. -/
theorem spooled_whole_pieces : ∃ s res,
    steps (fun s turn => if cutShort [97, 98] s turn then none else step s turn)
      [.client (.ok 328), .server (.ok 328), .server (.ok 7), .server (.ok 0), .client (.ok 2),
        .client (.ok 1), .server (.ok 1), .client (.ok 1), .server (.ok 1), .server (.ok 1),
        .server (.ok 1), .server (.fail .etime), .server (.ok 0), .server (.ok 328), .server (.ok 0)]
      (start 3 [] (printReq none [] 2 false []) [97, 98]) = some s ∧
    s.answer = some res ∧ res.retcode = 0 ∧ s.Whole [97, 98] := by
  have hrun : (steps (fun s turn => if cutShort [97, 98] s turn then none else step s turn)
      [.client (.ok 328), .server (.ok 328), .server (.ok 7), .server (.ok 0), .client (.ok 2),
        .client (.ok 1), .server (.ok 1), .client (.ok 1), .server (.ok 1), .server (.ok 1),
        .server (.ok 1), .server (.fail .etime), .server (.ok 0), .server (.ok 328), .server (.ok 0)]
      (start 3 [] (printReq none [] 2 false []) [97, 98])).any
      (fun s => s.answer == some ⟨0, 7, .requestId 7⟩) = true := by
    decide +kernel
  obtain ⟨s, hs, hanswer⟩ := (Option.any_eq_true _ _).mp hrun
  have hres : s.answer = some ⟨0, 7, .requestId 7⟩ := eq_of_beq hanswer
  exact ⟨s, _, hs, hres, rfl, spooled_whole (by decide) hs hres rfl⟩

/-- The client dies when it has sent the first of two bytes, and the job is accepted. -/
theorem spooled_cut :
    ¬ ∀ user fname junk buf file text fuel turns s res,
      steps step turns (start fuel buf (printReq user fname file.length text junk) file) = some s →
      s.answer = some res → res.retcode = 0 → s.Whole file := by
  intro hall
  have hrun : (steps step
      [.client (.ok 328), .server (.ok 328), .server (.ok 7), .server (.ok 0), .client (.ok 2),
        .client (.ok 1), .server (.ok 1), .server (.ok 1), .die, .server .eof, .server (.ok 0),
        .server (.ok 328), .server (.ok 0)]
      (start 3 [] (printReq none [] 2 false []) [97, 98])).any
      (fun s => s.answer == some ⟨0, 7, .requestId 7⟩ && s.data == some [97]) = true := by
    decide +kernel
  obtain ⟨s, hs, hfinal⟩ := (Option.any_eq_true _ _).mp hrun
  rw [Bool.and_eq_true, beq_iff_eq, beq_iff_eq] at hfinal
  obtain ⟨hanswer, hdata⟩ := hfinal
  have hwhole := hall none [] [] [] [97, 98] false 3 _ s _ hs hanswer rfl
  rw [Whole, hdata] at hwhole
  exact absurd (Option.some.inj hwhole.1) (by decide)

end Delivery

end Apue.Print
