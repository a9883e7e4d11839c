import Apue.PrintModel
import Mathlib.Logic.Relation

/-!
The daemon as a whole. Its threads take turns at their calls, in any order; each
critical section is one call, and the environment chooses which calls fail, what
arrives on a socket and which memory malloc returns. The daemon can be stopped
at any moment. What it kept in memory is then lost, and it starts again from the
job file and the spool directories.
-/
namespace Apue.Print

open Programs Decimal ByteFiles DoublyLinked

/-- A spool directory: the files by their job numbers. -/
abbrev SpoolDir := AList fun _ : ℤ => List Byte

/-- What happens to a job. -/
inductive JobEvent
  | added (job : Job)
  | taken (job : Job)
  | deferred (job : Job)
  | finished (job : Job) (fate : Fate)
  deriving DecidableEq

/-- The job file and the directories are on disk, the rest is in memory. -/
structure Daemon where
  jobfile : List Byte
  data : SpoolDir
  reqs : SpoolDir
  nextjob : ℤ
  queue : Queue
  log : List JobEvent

namespace Daemon

def dir (d : Daemon) : Dir → SpoolDir
  | .data => d.data
  | .reqs => d.reqs

def setDir (d : Daemon) (which : Dir) (files : SpoolDir) : Daemon :=
  match which with
  | .data => { d with data := files }
  | .reqs => { d with reqs := files }

/-- A file that has been unlinked meanwhile is written in vain. -/
def append (d : Daemon) (which : Dir) (jobid : ℤ) (bytes : List Byte) : Daemon :=
  match (d.dir which).lookup jobid with
  | none => d
  | some file => d.setDir which ((d.dir which).insert jobid (file ++ bytes))

/-- The job in a node. -/
def job (d : Daemon) (jp : ℕ) : Option Job := (d.queue.heap jp).map Node.val

def record (d : Daemon) (e : JobEvent) : Daemon := { d with log := d.log ++ [e] }

@[simp] theorem setDir_nextjob (d : Daemon) (which : Dir) (files : SpoolDir) :
    (d.setDir which files).nextjob = d.nextjob := by cases which <;> rfl

@[simp] theorem setDir_queue (d : Daemon) (which : Dir) (files : SpoolDir) :
    (d.setDir which files).queue = d.queue := by cases which <;> rfl

@[simp] theorem setDir_log (d : Daemon) (which : Dir) (files : SpoolDir) :
    (d.setDir which files).log = d.log := by cases which <;> rfl

/-- A write changes the contents of one file and nothing else. -/
theorem append_eq (d : Daemon) (which : Dir) (jobid : ℤ) (bytes : List Byte) :
    d.append which jobid bytes = d ∨ ∃ file, (d.dir which).lookup jobid = some file ∧
      d.append which jobid bytes = d.setDir which ((d.dir which).insert jobid (file ++ bytes)) := by
  unfold append
  split
  · exact Or.inl rfl
  · rename_i file hfile
    exact Or.inr ⟨file, hfile, rfl⟩

theorem mem_reqs_append (d : Daemon) (which : Dir) (jobid : ℤ) (bytes : List Byte) (n : ℤ) :
    n ∈ (d.append which jobid bytes).reqs ↔ n ∈ d.reqs := by
  rcases d.append_eq which jobid bytes with he | ⟨file, hfile, he⟩
  · rw [he]
  · rw [he]
    cases which with
    | data => rfl
    | reqs =>
      have hmem : jobid ∈ d.reqs :=
        AList.lookup_isSome.mp (by rw [show d.reqs.lookup jobid = some file from hfile]; rfl)
      refine (AList.mem_insert _).trans ⟨?_, Or.inr⟩
      rintro (rfl | hn)
      · exact hmem
      · exact hn

@[simp] theorem append_nextjob (d : Daemon) (which : Dir) (jobid : ℤ) (bytes : List Byte) :
    (d.append which jobid bytes).nextjob = d.nextjob := by
  rcases d.append_eq which jobid bytes with he | ⟨file, -, he⟩
  · rw [he]
  · rw [he, setDir_nextjob]

@[simp] theorem append_queue (d : Daemon) (which : Dir) (jobid : ℤ) (bytes : List Byte) :
    (d.append which jobid bytes).queue = d.queue := by
  rcases d.append_eq which jobid bytes with he | ⟨file, -, he⟩
  · rw [he]
  · rw [he, setDir_queue]

@[simp] theorem append_log (d : Daemon) (which : Dir) (jobid : ℤ) (bytes : List Byte) :
    (d.append which jobid bytes).log = d.log := by
  rcases d.append_eq which jobid bytes with he | ⟨file, -, he⟩
  · rw [he]
  · rw [he, setDir_log]

end Daemon

/-- The value of an int32_t. -/
def int32 (v : ℤ) : ℤ := v.bmod (2 ^ 32)

/-- The job number that get_newjobno leaves for the next call. -/
def nextJobno (jobid : ℤ) : ℤ := if int32 (jobid + 1) ≤ 0 then 1 else int32 (jobid + 1)

/-- The buffer into which init_request has printed the name of the job file:
`/var/spool/printer/jobno` and a null. -/
def jobfileName : List Byte :=
  "/var/spool/printer/jobno".toList.map (fun c => UInt8.ofNat c.toNat) ++ [0]

/-- init_request reads the number into the buffer that holds the name. -/
def initRequest (jobfile : List Byte) : ℤ :=
  let n := (readAt jobfile 0 FILENMSZ).length
  if n = 0 then 1 else int32 (atol (writeAt jobfileName 0 (readAt jobfile 0 FILENMSZ)))

/-- What the environment chooses for one call. -/
inductive Choice
  | ok
  | fail (e : Errno)
  | bytes (bs : List Byte)
  | count (n : ℕ)
  | addr (a : ℕ)
  | names (l : List ℤ)

/-- One call; without a result the thread waits or the choice does not apply. -/
def perform (choice : Choice) : (c : Call) → Daemon → Option (c.Ret × Daemon)
  | .tread nbytes, d =>
    match choice with
    | .bytes bs => if bs.length ≤ nbytes then some (.ok bs, d) else none
    | .fail e => some (.error e, d)
    | _ => none
  | .respond _, d => some ((), d)
  | .getNewjobno, d => some (d.nextjob, { d with nextjob := nextJobno d.nextjob })
  | .creat which jobid, d =>
    match choice with
    | .ok => some (none, d.setDir which ((d.dir which).insert jobid []))
    | .fail e => some (some e, d)
    | _ => none
  | .write which jobid bytes, d =>
    match choice with
    | .count n =>
      if n ≤ bytes.length then some (.ok n, d.append which jobid (bytes.take n)) else none
    | .fail e => some (.error e, d)
    | _ => none
  | .unlink which jobid, d => some ((), d.setDir which ((d.dir which).erase jobid))
  | .malloc job, d =>
    match choice with
    | .addr jp =>
      if (d.queue.heap jp).isNone then some (some jp, { d with queue := newJob d.queue jp job })
      else none
    | .fail _ => some (none, d)
    | _ => none
  | .addJob jp, d => do
    let job ← d.job jp
    let queue ← addJob d.queue jp
    return ((), { d with queue := queue }.record (.added job))
  | .takeJob, d => do
    let jp ← d.queue.jobhead
    let job ← d.job jp
    let queue ← removeJob d.queue jp
    return (jp, { d with queue := queue }.record (.taken job))
  | .loadJob jp, d => do
    let job ← d.job jp
    return (job, d)
  | .loadNextjob, d => some (d.nextjob, d)
  | .writeJobfile bytes, d =>
    match choice with
    | .ok => some (true, { d with jobfile := writeAt d.jobfile 0 bytes })
    | .fail _ => some (false, d)
    | _ => none
  | .openData jobid, d =>
    match choice with
    | .ok => if (d.data.lookup jobid).isSome then some (true, d) else none
    | .fail _ => some (false, d)
    | _ => none
  | .effort _ _, d =>
    match choice with
    | .ok => some (true, d)
    | .fail _ => some (false, d)
    | _ => none
  | .replaceJob jp, d => do
    let job ← d.job jp
    let queue ← replaceJob d.queue jp
    return ((), { d with queue := queue }.record (.deferred job))
  | .free jp fate, d => do
    let job ← d.job jp
    return ((), { d with queue := freeJob d.queue jp }.record (.finished job fate))
  | .opendir, d =>
    match choice with
    | .names l => if l.Perm d.reqs.keys then some (some l, d) else none
    | .fail _ => some (none, d)
    | _ => none
  | .readReq name, d =>
    match choice with
    | .ok => do
      let file ← d.reqs.lookup name
      return (some (.ok (readAt file 0 SIZEOF_PRINTREQ)), d)
    | .fail e => some (some (.error e), d)
    | _ => some (none, d)

/-- What a call can do, with the answer it then has. -/
inductive Effect : (c : Call) → c.Ret → Daemon → Daemon → Prop
  | still {c : Call} {r : c.Ret} {d : Daemon} (hc : c.Transfer) : Effect c r d d
  | number {d : Daemon} :
      Effect .getNewjobno d.nextjob d { d with nextjob := nextJobno d.nextjob }
  | created {which : Dir} {jobid : ℤ} {d : Daemon} :
      Effect (.creat which jobid) none d (d.setDir which ((d.dir which).insert jobid []))
  | notCreated {which : Dir} {jobid : ℤ} {e : Errno} {d : Daemon} :
      Effect (.creat which jobid) (some e) d d
  | wrote {which : Dir} {jobid : ℤ} {bytes : List Byte} {n : ℕ} {d : Daemon}
      (hn : n ≤ bytes.length) :
      Effect (.write which jobid bytes) (.ok n) d (d.append which jobid (bytes.take n))
  | unlinked {which : Dir} {jobid : ℤ} {d : Daemon} :
      Effect (.unlink which jobid) () d (d.setDir which ((d.dir which).erase jobid))
  | allocated {job : Job} {jp : ℕ} {d : Daemon} (hfree : d.queue.heap jp = none) :
      Effect (.malloc job) (some jp) d { d with queue := newJob d.queue jp job }
  | notAllocated {job : Job} {d : Daemon} : Effect (.malloc job) none d d
  | added {jp : ℕ} {job : Job} {queue : Queue} {d : Daemon} (hjob : d.job jp = some job)
      (hq : addJob d.queue jp = some queue) :
      Effect (.addJob jp) () d ({ d with queue := queue }.record (.added job))
  | taken {jp : ℕ} {job : Job} {queue : Queue} {d : Daemon} (hhead : d.queue.jobhead = some jp)
      (hjob : d.job jp = some job) (hq : removeJob d.queue jp = some queue) :
      Effect .takeJob jp d ({ d with queue := queue }.record (.taken job))
  | loaded {jp : ℕ} {job : Job} {d : Daemon} (hjob : d.job jp = some job) :
      Effect (.loadJob jp) job d d
  | updated {bytes : List Byte} {d : Daemon} :
      Effect (.writeJobfile bytes) true d { d with jobfile := writeAt d.jobfile 0 bytes }
  | replaced {jp : ℕ} {job : Job} {queue : Queue} {d : Daemon} (hjob : d.job jp = some job)
      (hq : replaceJob d.queue jp = some queue) :
      Effect (.replaceJob jp) () d ({ d with queue := queue }.record (.deferred job))
  | freed {jp : ℕ} {job : Job} {fate : Fate} {d : Daemon} (hjob : d.job jp = some job) :
      Effect (.free jp fate) () d
        ({ d with queue := freeJob d.queue jp }.record (.finished job fate))
  | listed {names : List ℤ} {d : Daemon} (hperm : names.Perm d.reqs.keys) :
      Effect .opendir (some names) d d
  | notListed {d : Daemon} : Effect .opendir none d d
  | read {name : ℤ} {file : List Byte} {d : Daemon} (hfile : d.reqs.lookup name = some file) :
      Effect (.readReq name) (some (.ok (readAt file 0 SIZEOF_PRINTREQ))) d d
  | notRead {name : ℤ} {r : Option (Except Errno (List Byte))} {d : Daemon}
      (hr : ∀ req, r ≠ some (.ok req)) : Effect (.readReq name) r d d

inductive Who
  | main
  | printer
  | client (t : ℕ)
  deriving DecidableEq

/-- The daemon, its threads, and the job number each thread was given last. -/
structure System where
  daemon : Daemon
  up : Bool
  thread : Who → Prog sig Unit
  number : Who → Option ℤ

def emptyQueue : Queue := ⟨fun _ => none, none, none⟩

/-- Nothing has been printed yet. -/
def installed : System where
  daemon := ⟨[], ∅, ∅, 0, emptyQueue, []⟩
  up := false
  thread _ := .ret ()
  number _ := none

/-- The memory and the threads of a daemon that has just started. The printer
thread is created before the main thread fills the queue. -/
def started (d : Daemon) : System where
  daemon := { d with nextjob := initRequest d.jobfile, queue := emptyQueue, log := [] }
  up := true
  thread
    | .main => buildQonstart
    | .printer => printerRound
    | .client _ => .ret ()
  number _ := none

/-- The number of a thread after a call. -/
def noteNumber : (c : Call) → c.Ret → Option ℤ → Option ℤ
  | .getNewjobno, jobid, _ => some jobid
  | _, _, old => old

def finished : Prog sig Unit → Bool
  | .ret _ => true
  | _ => false

inductive Action
  | start
  | accept (t : ℕ) (buf : List Byte)
  | again
  | run (w : Who) (choice : Choice)
  | stop

/-- One step of the daemon. The main thread accepts connections once it has
filled the queue. -/
def step (fuel : ℕ) : Action → System → Option System
  | .start, s => if s.up then none else some (started s.daemon)
  | .stop, s => if s.up then some { s with up := false } else none
  | .accept t buf, s =>
    if s.up ∧ finished (s.thread .main) ∧ finished (s.thread (.client t)) then
      some { s with
        thread := Function.update s.thread (.client t) (clientThread fuel buf)
        number := Function.update s.number (.client t) none }
    else none
  | .again, s =>
    if s.up ∧ finished (s.thread .printer) then
      some { s with thread := Function.update s.thread .printer printerRound }
    else none
  | .run w choice, s =>
    if s.up then
      match s.thread w with
      | .call c k => do
        let (r, d) ← perform choice c s.daemon
        return { s with
          daemon := d
          thread := Function.update s.thread w (k r)
          number := Function.update s.number w (noteNumber c r (s.number w)) }
      | _ => none
    else none

/-- A client that submits an empty file, up to its place in the queue. -/
def submission (t jp : ℕ) : List Action :=
  .accept t [] :: [.bytes (List.replicate SIZEOF_PRINTREQ 0), .ok, .ok, .bytes [], .ok,
    .count SIZEOF_PRINTREQ, .ok, .addr jp, .ok].map (.run (.client t))

/-- The printer thread takes a job and writes the job file. -/
def pickUp : List Action := List.replicate 4 (.run .printer .ok)

theorem perform_effect {choice : Choice} {c : Call} {d d' : Daemon} {r : c.Ret}
    (h : perform choice c d = some (r, d')) : Effect c r d d' := by
  cases c with
  | tread nbytes =>
    simp only [perform] at h
    split at h
    · split at h
      · cases h
        exact .still trivial
      · cases h
    · cases h
      exact .still trivial
    · cases h
  | respond res =>
    cases h
    exact .still trivial
  | getNewjobno =>
    cases h
    exact .number
  | creat which jobid =>
    simp only [perform] at h
    split at h
    · cases h
      exact .created
    · cases h
      exact .notCreated
    · cases h
  | write which jobid bytes =>
    simp only [perform] at h
    split at h
    · split at h
      · rename_i hn
        cases h
        exact .wrote hn
      · cases h
    · cases h
      exact .still trivial
    · cases h
  | unlink which jobid =>
    cases h
    exact .unlinked
  | malloc job =>
    simp only [perform] at h
    split at h
    · split at h
      · rename_i hfree
        cases h
        exact .allocated (Option.isNone_iff_eq_none.mp hfree)
      · cases h
    · cases h
      exact .notAllocated
    · cases h
  | addJob jp =>
    obtain ⟨job, hjob, h⟩ := Option.bind_eq_some_iff.mp h
    obtain ⟨queue, hq, h⟩ := Option.bind_eq_some_iff.mp h
    cases h
    exact .added hjob hq
  | takeJob =>
    obtain ⟨jp, hhead, h⟩ := Option.bind_eq_some_iff.mp h
    obtain ⟨job, hjob, h⟩ := Option.bind_eq_some_iff.mp h
    obtain ⟨queue, hq, h⟩ := Option.bind_eq_some_iff.mp h
    cases h
    exact .taken hhead hjob hq
  | loadJob jp =>
    obtain ⟨job, hjob, h⟩ := Option.bind_eq_some_iff.mp h
    cases h
    exact .loaded hjob
  | loadNextjob =>
    cases h
    exact .still trivial
  | writeJobfile bytes =>
    simp only [perform] at h
    split at h
    · cases h
      exact .updated
    · cases h
      exact .still trivial
    · cases h
  | openData jobid =>
    simp only [perform] at h
    split at h
    · split at h
      · cases h
        exact .still trivial
      · cases h
    · cases h
      exact .still trivial
    · cases h
  | effort what job =>
    simp only [perform] at h
    split at h
    · cases h
      exact .still trivial
    · cases h
      exact .still trivial
    · cases h
  | replaceJob jp =>
    obtain ⟨job, hjob, h⟩ := Option.bind_eq_some_iff.mp h
    obtain ⟨queue, hq, h⟩ := Option.bind_eq_some_iff.mp h
    cases h
    exact .replaced hjob hq
  | free jp fate =>
    obtain ⟨job, hjob, h⟩ := Option.bind_eq_some_iff.mp h
    cases h
    exact .freed hjob
  | opendir =>
    simp only [perform] at h
    split at h
    · split at h
      · rename_i hperm
        cases h
        exact .listed hperm
      · cases h
    · cases h
      exact .notListed
    · cases h
  | readReq name =>
    simp only [perform] at h
    split at h
    · obtain ⟨file, hfile, h⟩ := Option.bind_eq_some_iff.mp h
      cases h
      exact .read hfile
    · cases h
      exact .notRead nofun
    · cases h
      exact .notRead nofun

/-- A step of the daemon, with what it does to the threads. -/
theorem step_cases {fuel : ℕ} {a : Action} {s s' : System} (h : step fuel a s = some s') :
    (a = .start ∧ s.up = false ∧ s' = started s.daemon) ∨
      (a = .stop ∧ s' = { s with up := false }) ∨
      (∃ t buf, a = .accept t buf ∧ s.up = true ∧
        finished (s.thread .main) = true ∧ finished (s.thread (.client t)) = true ∧
        s' = { s with
          thread := Function.update s.thread (.client t) (clientThread fuel buf)
          number := Function.update s.number (.client t) none }) ∨
      (a = .again ∧ s.up = true ∧ finished (s.thread .printer) = true ∧
        s' = { s with thread := Function.update s.thread .printer printerRound }) ∨
      ∃ w choice c k r d, a = .run w choice ∧ s.up = true ∧ s.thread w = .call c k ∧
        perform choice c s.daemon = some (r, d) ∧
        s' = { s with
          daemon := d
          thread := Function.update s.thread w (k r)
          number := Function.update s.number w (noteNumber c r (s.number w)) } := by
  cases a with
  | start =>
    simp only [step] at h
    split at h
    · cases h
    · rename_i hup
      exact Or.inl ⟨rfl, Bool.eq_false_of_not_eq_true hup, (Option.some.inj h).symm⟩
  | stop =>
    simp only [step] at h
    split at h
    · exact Or.inr (Or.inl ⟨rfl, (Option.some.inj h).symm⟩)
    · cases h
  | accept t buf =>
    simp only [step] at h
    split at h
    · rename_i hif
      exact Or.inr (Or.inr (Or.inl ⟨t, buf, rfl, hif.1, hif.2.1, hif.2.2, (Option.some.inj h).symm⟩))
    · cases h
  | again =>
    simp only [step] at h
    split at h
    · rename_i hif
      exact Or.inr (Or.inr (Or.inr (Or.inl ⟨rfl, hif.1, hif.2, (Option.some.inj h).symm⟩)))
    · cases h
  | run w choice =>
    simp only [step] at h
    split at h
    · rename_i hup
      split at h
      · rename_i c k ht
        obtain ⟨⟨r, d⟩, hperf, h⟩ := Option.bind_eq_some_iff.mp h
        exact Or.inr (Or.inr (Or.inr (Or.inr
          ⟨w, choice, c, k, r, d, rfl, hup, ht, hperf, (Option.some.inj h).symm⟩)))
      · cases h
    · cases h

/-- Every thread obeys the rules from where it is, with a state of its own, and
`final` holds when it returns. -/
def Follows {G : Type} (D : Rules sig G) (final : G → Prop) (thread : Who → Prog sig Unit)
    (g : Who → G) : Prop :=
  ∀ w, D.Obeys (thread w) (g w) fun _ => final

section Follows

variable {G : Type} {D : Rules sig G} {final : G → Prop} {thread : Who → Prog sig Unit} {g : Who → G}

theorem Follows.set (h : Follows D final thread g) (w : Who) {p : Prog sig Unit} {gw : G}
    (hp : D.Obeys p gw fun _ => final) :
    Follows D final (Function.update thread w p) (Function.update g w gw) := by
  intro v
  by_cases hv : v = w
  · subst hv
    rw [Function.update_self, Function.update_self]
    exact hp
  · rw [Function.update_of_ne hv, Function.update_of_ne hv]
    exact h v

theorem Follows.call (h : Follows D final thread g) {w : Who} {c : Call}
    {k : c.Ret → Prog sig Unit} (hw : thread w = .call c k) (r : c.Ret) :
    D.pre c (g w) ∧
      Follows D final (Function.update thread w (k r)) (Function.update g w (D.post c r (g w))) := by
  have hobey := h w
  rw [hw] at hobey
  exact ⟨hobey.1, h.set w (hobey.2 r)⟩

theorem Follows.final_of_finished (h : Follows D final thread g) {w : Who}
    (hw : finished (thread w) = true) : final (g w) := by
  have hobey := h w
  cases ht : thread w with
  | ret a =>
    rw [ht] at hobey
    exact hobey
  | abort msg => simp [ht, finished] at hw
  | diverge => simp [ht, finished] at hw
  | call c k => simp [ht, finished] at hw

end Follows

end Apue.Print
