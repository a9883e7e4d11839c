import Apue.Programs
import Apue.ByteFiles
import Mathlib.Logic.Relation

/-!
The lock file of a daemon (daemons/single.c with advio/lockfile.c). Any number of processes are
born, call already_running any number of times and die at any time, also in the middle of the
call. The lock is a record lock on the whole file: it belongs to a process, goes when the
process dies, and goes when the process closes a descriptor of the file. What the file says is
what a reader finds up to the first null byte.
-/
namespace Apue.SingleDaemon

open Programs Decimal ByteFiles Relation

inductive Errno
  | eacces
  | eagain
  | other

/-- The calls of already_running, all on LOCKFILE. -/
inductive Call
  | create
  | setlk (fd : ℕ)
  | close (fd : ℕ)
  | ftruncate (fd : ℕ)
  | getpid
  | write (fd : ℕ) (bytes : List Byte)

def Call.Ret : Call → Type
  | .create => Option ℕ
  | .setlk _ => Option Errno
  | .getpid => ℕ
  | .close _ | .ftruncate _ | .write _ _ => Unit

def sig : Signature := ⟨Call, Call.Ret⟩

def lockfile (fd : ℕ) : Prog sig (Option Errno) := .call (.setlk fd) .ret

/-- What follows when the lock is granted: the process writes its number. -/
def claim (fd : ℕ) : Prog sig Bool :=
  .call (.ftruncate fd) fun _ => .call .getpid fun pid =>
    .call (.write fd (decimal pid ++ [0])) fun _ => .ret false

/-- What follows the answer to the lock. -/
def judge (fd : ℕ) : Option Errno → Prog sig Bool
  | some .eacces | some .eagain => .call (.close fd) fun _ => .ret true
  | some .other => .abort "can't lock"
  | none => claim fd

/-- What follows the answer to open. -/
def opened : Option ℕ → Prog sig Bool
  | none => .abort "can't open"
  | some fd => lockfile fd >>= judge fd

/-- It returns whether a daemon is running already. -/
def alreadyRunning : Prog sig Bool := .call .create opened

inductive Phase
  | dead
  | idle
  | busy (prog : Prog sig Bool)

/-- The file, its lock, and the processes by their numbers. `fds` has the place in the file of
each descriptor, `told` the last answer of already_running in the life of the process, and
`wrote` whether its last write was not cut short. -/
structure State where
  file : Option (List Byte)
  lock : Option ℕ
  proc : ℕ → Phase
  fds : ℕ → ℕ → Option ℕ
  told : ℕ → Option Bool
  wrote : ℕ → Bool

def start (file : Option (List Byte)) : State :=
  ⟨file, none, fun _ => .dead, fun _ _ => none, fun _ => none, fun _ => false⟩

namespace State

def go (s : State) (p : ℕ) (phase : Phase) : State :=
  { s with proc := Function.update s.proc p phase }

def setFd (s : State) (p fd : ℕ) (off : Option ℕ) : State :=
  { s with fds := Function.update s.fds p (Function.update (s.fds p) fd off) }

def answer (s : State) (p : ℕ) (b : Option Bool) : State :=
  { s with told := Function.update s.told p b }

/-- The lock without the process. -/
def unlocked (s : State) (p : ℕ) : Option ℕ := if s.lock = some p then none else s.lock

end State

/-- What a call of a process does. Other failures than of the lock have no effect. -/
inductive Exec (p : ℕ) (s : State) : (c : Call) → c.Ret → State → Prop
  | createFails : Exec p s .create none s
  | create {fd : ℕ} (hnew : s.fds p fd = none) :
      Exec p s .create (some fd) { s.setFd p fd (some 0) with file := some (s.file.getD []) }
  | granted {fd : ℕ} (hfree : s.lock = none ∨ s.lock = some p) :
      Exec p s (.setlk fd) none { s with lock := some p }
  | refused {fd q : ℕ} {e : Errno} (hlock : s.lock = some q) (hq : q ≠ p) (he : e ≠ .other) :
      Exec p s (.setlk fd) (some e) s
  | lockFails {fd : ℕ} : Exec p s (.setlk fd) (some .other) s
  | close {fd : ℕ} : Exec p s (.close fd) () { s.setFd p fd none with lock := s.unlocked p }
  | ftruncate {fd : ℕ} : Exec p s (.ftruncate fd) () { s with file := some [] }
  | ftruncateFails {fd : ℕ} : Exec p s (.ftruncate fd) () s
  | getpid : Exec p s .getpid p s
  | write {fd off n : ℕ} {bytes content : List Byte} (hoff : s.fds p fd = some off)
      (hfile : s.file = some content) (hn : n ≤ bytes.length) :
      Exec p s (.write fd bytes) () { s.setFd p fd (some (off + n)) with
        file := some (writeAt content off (bytes.take n))
        wrote := Function.update s.wrote p (n == bytes.length) }

inductive Step (s : State) : State → Prop
  | born {p : ℕ} (hp : s.proc p = .dead) :
      Step s { s.go p .idle with fds := Function.update s.fds p fun _ => none }
  | call {p : ℕ} (hp : s.proc p = .idle) : Step s (s.go p (.busy alreadyRunning))
  | sys {p : ℕ} {c : Call} {k : c.Ret → Prog sig Bool} {r : c.Ret} {s' : State}
      (hp : s.proc p = .busy (.call c k)) (hexec : Exec p s c r s') :
      Step s (s'.go p (.busy (k r)))
  | ret {p : ℕ} {b : Bool} (hp : s.proc p = .busy (.ret b)) :
      Step s ((s.answer p (some b)).go p .idle)
  | die {p : ℕ} (hp : s.proc p ≠ .dead) :
      Step s { (s.answer p none).go p .dead with lock := s.unlocked p }

def Reachable (file : Option (List Byte)) (s : State) : Prop := ReflTransGen Step (start file) s

/-- The file names the process. -/
def State.Names (s : State) (p : ℕ) : Prop :=
  ∃ content, s.file = some content ∧ (content.takeWhile fun b => b ≠ 0) = decimal p

/-- The process is the daemon, or the rest of its call makes it the daemon. -/
def State.Claims (s : State) (p : ℕ) : Prop :=
  s.told p = some false ∨ ∃ prog, s.proc p = .busy prog ∧ prog.Returns fun b => b = false

namespace State

variable {s s' : State} {p q fd : ℕ} {prog : Prog sig Bool}

/-- If the process has the lock and wrote its number, the file names it. -/
def Named (s : State) (p : ℕ) : Prop := s.lock = some p → s.wrote p = true → s.Names p

/-- Where a process is in its call, with what it can rely on. -/
inductive At (s : State) (p : ℕ) : Prog sig Bool → Prop
  | opening (hnamed : s.Named p) : At s p alreadyRunning
  | locking {fd : ℕ} (hnamed : s.Named p) (hfd : s.fds p fd = some 0) :
      At s p (lockfile fd >>= judge fd)
  | closing {fd : ℕ} (hlock : s.lock ≠ some p) : At s p (.call (.close fd) fun _ => .ret true)
  | truncating {fd : ℕ} (hlock : s.lock = some p) (hfd : s.fds p fd = some 0) :
      At s p (claim fd)
  | asking {fd : ℕ} (hlock : s.lock = some p) (hfd : s.fds p fd = some 0) :
      At s p (.call .getpid fun pid => .call (.write fd (decimal pid ++ [0])) fun _ => .ret false)
  | writing {fd : ℕ} (hlock : s.lock = some p) (hfd : s.fds p fd = some 0) :
      At s p (.call (.write fd (decimal p ++ [0])) fun _ => .ret false)
  | running (hlock : s.lock ≠ some p) : At s p (.ret true)
  | claimed (hlock : s.lock = some p) (hnamed : s.Named p) : At s p (.ret false)
  | failed {msg : String} : At s p (.abort msg)

def PhaseOk (s : State) (p : ℕ) : Phase → Prop
  | .dead => s.told p = none ∧ s.lock ≠ some p
  | .idle => s.Named p
  | .busy prog => s.At p prog

structure Inv (s : State) : Prop where
  phase : ∀ p, s.PhaseOk p (s.proc p)
  told : ∀ p, s.told p = some false → s.lock = some p
  owner : ∀ p, s.lock = some p → s.Claims p

theorem inv_start (file : Option (List Byte)) : (start file).Inv :=
  ⟨fun _ => ⟨rfl, nofun⟩, nofun, nofun⟩

/-- What a step of another process leaves alone. -/
structure Spares (s s' : State) (p : ℕ) : Prop where
  lock : s'.lock = some p ↔ s.lock = some p
  wrote : s'.wrote p = s.wrote p
  fds : s'.fds p = s.fds p
  told : s'.told p = s.told p
  file : s.lock = some p → s.file ≠ none → s'.file = s.file

theorem Spares.named (h : s.Spares s' p) (hnamed : s.Named p) : s'.Named p := by
  intro hlock hwrote
  obtain ⟨content, hfile, hreads⟩ := hnamed (h.lock.mp hlock) (h.wrote ▸ hwrote)
  have hkept := h.file (h.lock.mp hlock) (by simp [hfile])
  exact ⟨content, hkept.trans hfile, hreads⟩

theorem Spares.phase {phase : Phase} (h : s.Spares s' p) (hok : s.PhaseOk p phase) :
    s'.PhaseOk p phase := by
  cases phase with
  | dead => exact ⟨h.told.trans hok.1, h.lock.not.mpr hok.2⟩
  | idle => exact h.named hok
  | busy prog =>
    cases hok with
    | opening hnamed => exact .opening (h.named hnamed)
    | locking hnamed hfd => exact .locking (h.named hnamed) (h.fds ▸ hfd)
    | closing hlock => exact .closing (h.lock.not.mpr hlock)
    | truncating hlock hfd => exact .truncating (h.lock.mpr hlock) (h.fds ▸ hfd)
    | asking hlock hfd => exact .asking (h.lock.mpr hlock) (h.fds ▸ hfd)
    | writing hlock hfd => exact .writing (h.lock.mpr hlock) (h.fds ▸ hfd)
    | running hlock => exact .running (h.lock.not.mpr hlock)
    | claimed hlock hnamed => exact .claimed (h.lock.mpr hlock) (h.named hnamed)
    | failed => exact .failed

/-- A step of one process keeps the invariant, if it leaves the others alone and the process
itself is in order after it. -/
theorem Inv.act {phase : Phase} (h : s.Inv) (hproc : s'.proc = Function.update s.proc p phase)
    (hothers : ∀ q, q ≠ p → s.Spares s' q) (hphase : s'.PhaseOk p phase)
    (htold : s'.told p = some false → s'.lock = some p)
    (howner : s'.lock = some p → s'.Claims p) : s'.Inv := by
  refine ⟨fun q => ?_, fun q hq => ?_, fun q hq => ?_⟩
  · rw [hproc]
    by_cases hqp : q = p
    · subst hqp
      rw [Function.update_self]
      exact hphase
    · rw [Function.update_of_ne hqp]
      exact (hothers q hqp).phase (h.phase q)
  · by_cases hqp : q = p
    · subst hqp
      exact htold hq
    · have hspares := hothers q hqp
      exact hspares.lock.mpr (h.told q (hspares.told ▸ hq))
  · by_cases hqp : q = p
    · subst hqp
      exact howner hq
    · have hspares := hothers q hqp
      rcases h.owner q (hspares.lock.mp hq) with hold | ⟨prog, hprog, hreturns⟩
      · exact Or.inl (hspares.told.trans hold)
      · refine Or.inr ⟨prog, ?_, hreturns⟩
        rw [hproc, Function.update_of_ne hqp]
        exact hprog

theorem unlocked_ne (s : State) (p : ℕ) : s.unlocked p ≠ some p := by
  unfold unlocked
  split
  · exact nofun
  · assumption

theorem unlocked_eq (hq : q ≠ p) : s.unlocked p = some q ↔ s.lock = some q := by
  unfold unlocked
  split
  case isTrue hlock =>
    rw [hlock]
    exact ⟨nofun, fun heq => absurd (Option.some.inj heq).symm hq⟩
  case isFalse => exact Iff.rfl

theorem setFd_of_ne {off : Option ℕ} (hq : q ≠ p) : (s.setFd p fd off).fds q = s.fds q :=
  Function.update_of_ne hq ..

theorem setFd_self {off : Option ℕ} : (s.setFd p fd off).fds p fd = off := by
  show Function.update s.fds p (Function.update (s.fds p) fd off) p fd = off
  rw [Function.update_self, Function.update_self]

/-- The owner of the lock is the daemon, if its call can still return another answer. -/
theorem Inv.told_of_owner (h : s.Inv) (hp : s.proc p = .busy prog)
    (hreturns : ¬ prog.Returns fun b => b = false) (hlock : s.lock = some p) :
    s.told p = some false := by
  rcases h.owner p hlock with hold | ⟨prog', hprog', hreturns'⟩
  · exact hold
  · obtain rfl := Phase.busy.inj (hp.symm.trans hprog')
    exact absurd hreturns' hreturns

theorem takeWhile_digits {text : List Byte} (htext : (0 : Byte) ∉ text) (rest : List Byte) :
    ((text ++ 0 :: rest).takeWhile fun b => b ≠ 0) = text := by
  have hne : ∀ b ∈ text, decide (b ≠ 0) = true := fun b hb =>
    decide_eq_true (ne_of_mem_of_not_mem hb htext)
  rw [List.takeWhile_append_of_pos hne, List.takeWhile_cons_of_neg (by simp), List.append_nil]

/-- A number that is written at the beginning is all that a reader sees. -/
theorem written_names (content : List Byte) (p : ℕ) :
    ((writeAt content 0 (decimal p ++ [0])).takeWhile fun b => b ≠ 0) = decimal p := by
  have hdigit : (0 : Byte) ∉ decimal p := not_mem_decimal rfl p
  unfold writeAt
  rw [List.take_zero, Nat.zero_sub, List.replicate_zero, List.nil_append, List.nil_append,
    List.append_assoc]
  exact takeWhile_digits hdigit _

theorem Inv.create {r : Option ℕ} (h : s.Inv) (hp : s.proc p = .busy alreadyRunning)
    (hnamed : s.Named p) (hexec : Exec p s .create r s') :
    (s'.go p (.busy (opened r))).Inv := by
  have htold : s.lock = some p → s.told p = some false :=
    h.told_of_owner hp fun hreturns => Bool.noConfusion (hreturns (some 0) (some .eacces) ())
  cases hexec with
  | createFails =>
    exact h.act rfl (fun q _ => ⟨Iff.rfl, rfl, rfl, rfl, fun _ _ => rfl⟩) .failed (h.told p)
      fun hlock => Or.inl (htold hlock)
  | create hnew =>
    refine h.act rfl (fun q hq => ⟨Iff.rfl, rfl, setFd_of_ne hq, rfl, fun _ hfile => ?_⟩)
      (.locking (fun hlock hwrote => ?_) setFd_self) (h.told p) fun hlock => Or.inl (htold hlock)
    · obtain ⟨content, hcontent⟩ := Option.ne_none_iff_exists'.mp hfile
      show some (s.file.getD []) = s.file
      rw [hcontent, Option.getD_some]
    · obtain ⟨content, hcontent, hreads⟩ := hnamed hlock hwrote
      refine ⟨content, ?_, hreads⟩
      show some (s.file.getD []) = some content
      rw [hcontent, Option.getD_some]

theorem Inv.setlk {r : Option Errno} (h : s.Inv) (hp : s.proc p = .busy (lockfile fd >>= judge fd))
    (hfd : s.fds p fd = some 0) (hexec : Exec p s (.setlk fd) r s') :
    (s'.go p (.busy (judge fd r))).Inv := by
  have htold : s.lock = some p → s.told p = some false :=
    h.told_of_owner hp fun hreturns => Bool.noConfusion (hreturns (some .eacces) ())
  cases hexec with
  | granted hfree =>
    refine h.act rfl (fun q hq => ⟨?_, rfl, rfl, rfl, fun _ _ => rfl⟩) (.truncating rfl hfd)
      (fun _ => rfl) fun _ => Or.inr ⟨claim fd, Function.update_self .., fun _ _ _ => rfl⟩
    show some p = some q ↔ s.lock = some q
    rcases hfree with hfree | hfree <;> simp [hfree, Ne.symm hq]
  | refused hlock hq he =>
    refine h.act rfl (fun q _ => ⟨Iff.rfl, rfl, rfl, rfl, fun _ _ => rfl⟩) ?_ (h.told p)
      fun hlock => Or.inl (htold hlock)
    have hnot : s.lock ≠ some p := by
      rw [hlock]
      exact fun heq => hq (Option.some.inj heq)
    rename_i e
    cases e with
    | eacces => exact At.closing hnot
    | eagain => exact At.closing hnot
    | other => exact absurd rfl he
  | lockFails =>
    exact h.act rfl (fun q _ => ⟨Iff.rfl, rfl, rfl, rfl, fun _ _ => rfl⟩) .failed (h.told p)
      fun hlock => Or.inl (htold hlock)

theorem Inv.close {r : Unit} (h : s.Inv) (hnot : s.lock ≠ some p)
    (hexec : Exec p s (.close fd) r s') : (s'.go p (.busy (.ret true))).Inv := by
  cases hexec with
  | close =>
    exact h.act rfl (fun q hq => ⟨unlocked_eq hq, rfl, setFd_of_ne hq, rfl, fun _ _ => rfl⟩)
      (.running (unlocked_ne s p)) (fun htold => absurd (h.told p htold) hnot)
      fun hlock => absurd hlock (unlocked_ne s p)

/-- The owner of the lock goes on to claim the file, which no other process can have named. -/
theorem Inv.claiming {rest : Prog sig Bool} (h : s.Inv) (hlock : s.lock = some p)
    (hsame : s'.lock = s.lock) (hothers : ∀ q, q ≠ p → s'.fds q = s.fds q ∧ s'.wrote q = s.wrote q)
    (htold : s'.told = s.told) (hproc : s'.proc = s.proc) (hat : s'.At p rest)
    (hreturns : rest.Returns fun b => b = false) : (s'.go p (.busy rest)).Inv := by
  have hat' : (s'.go p (.busy rest)).At p rest := by
    have hspares : s'.Spares (s'.go p (.busy rest)) p :=
      ⟨Iff.rfl, rfl, rfl, rfl, fun _ _ => rfl⟩
    exact hspares.phase (show s'.PhaseOk p (.busy rest) from hat)
  have hproc' : (s'.go p (.busy rest)).proc = Function.update s.proc p (.busy rest) := by
    unfold State.go
    rw [hproc]
  refine h.act hproc' (fun q hq => ⟨?_, (hothers q hq).2, (hothers q hq).1, ?_, ?_⟩) hat'
    (fun _ => hsame.trans hlock) fun _ => Or.inr ⟨rest, Function.update_self .., hreturns⟩
  · show s'.lock = some q ↔ s.lock = some q
    rw [hsame]
  · show s'.told q = s.told q
    rw [htold]
  · intro hq' _
    rw [hlock] at hq'
    exact absurd (Option.some.inj hq').symm hq

theorem Inv.sys {c : Call} {k : c.Ret → Prog sig Bool} {r : c.Ret} (h : s.Inv)
    (hp : s.proc p = .busy (.call c k)) (hexec : Exec p s c r s') :
    (s'.go p (.busy (k r))).Inv := by
  have hat := h.phase p
  rw [hp] at hat
  change s.At p (Prog.call (S := sig) c k) at hat
  generalize hprog : Prog.call (S := sig) c k = prog at hat
  cases hat with
  | opening hnamed =>
    unfold alreadyRunning at hprog
    cases hprog
    exact h.create hp hnamed hexec
  | @locking fd hnamed hfd =>
    change Prog.call (S := sig) c k = .call (.setlk fd) (judge fd) at hprog
    cases hprog
    exact h.setlk hp hfd hexec
  | closing hlock =>
    cases hprog
    exact h.close hlock hexec
  | truncating hlock hfd =>
    unfold claim at hprog
    cases hprog
    cases hexec with
    | ftruncate =>
      exact h.claiming hlock rfl (fun _ _ => ⟨rfl, rfl⟩) rfl rfl (.asking hlock hfd) fun _ _ => rfl
    | ftruncateFails =>
      exact h.claiming hlock rfl (fun _ _ => ⟨rfl, rfl⟩) rfl rfl (.asking hlock hfd) fun _ _ => rfl
  | asking hlock hfd =>
    cases hprog
    cases hexec with
    | getpid =>
      exact h.claiming hlock rfl (fun _ _ => ⟨rfl, rfl⟩) rfl rfl (.writing hlock hfd) fun _ => rfl
  | writing hlock hfd =>
    cases hprog
    cases hexec with
    | @write _ off n _ content hoff hfile hn =>
      refine h.claiming hlock rfl
        (fun q hq => ⟨setFd_of_ne hq, Function.update_of_ne hq ..⟩) rfl rfl
        (.claimed hlock fun _ hwrote => ?_) rfl
      obtain rfl := Option.some.inj (hoff.symm.trans hfd)
      refine ⟨_, rfl, ?_⟩
      have hall : n = (decimal p ++ [0]).length := by
        change Function.update s.wrote p (n == (decimal p ++ [0]).length) p = true at hwrote
        rw [Function.update_self] at hwrote
        exact eq_of_beq hwrote
      rw [hall, List.take_length]
      exact written_names content p
  | running hlock | claimed hlock hnamed | failed => cases hprog

theorem Inv.step (h : s.Inv) (hs : Step s s') : s'.Inv := by
  cases hs with
  | @born p hp =>
    have hdead := h.phase p
    rw [hp] at hdead
    refine h.act rfl (fun q hq => ⟨Iff.rfl, rfl, Function.update_of_ne hq .., rfl, fun _ _ => rfl⟩)
      (fun hlock => absurd hlock hdead.2) (h.told p) fun hlock => absurd hlock hdead.2
  | @call p hp =>
    have hnamed := h.phase p
    rw [hp] at hnamed
    refine h.act rfl (fun q _ => ⟨Iff.rfl, rfl, rfl, rfl, fun _ _ => rfl⟩) (.opening hnamed)
      (h.told p) fun hlock => ?_
    rcases h.owner p hlock with hold | ⟨prog, hprog, -⟩
    · exact Or.inl hold
    · cases hp.symm.trans hprog
  | sys hp hexec => exact h.sys hp hexec
  | @ret p b hp =>
    have hat := h.phase p
    rw [hp] at hat
    have hothers : ∀ q, q ≠ p → s.Spares ((s.answer p (some b)).go p .idle) q := fun q hq =>
      ⟨Iff.rfl, rfl, rfl, Function.update_of_ne hq .., fun _ _ => rfl⟩
    change s.At p (.ret b) at hat
    generalize hprog : Prog.ret b = prog at hat
    cases hat with
    | running hlock =>
      cases hprog
      refine h.act rfl hothers (fun hmine => absurd hmine hlock) (fun htold => ?_)
        fun hmine => absurd hmine hlock
      cases (Function.update_self ..).symm.trans htold
    | claimed hlock hnamed =>
      cases hprog
      exact h.act rfl hothers hnamed (fun _ => hlock) fun _ => Or.inl (Function.update_self ..)
    | opening | locking | closing | truncating | asking | writing | failed =>
      cases hprog
  | @die p hp =>
    refine h.act rfl
      (fun q hq => ⟨unlocked_eq hq, rfl, rfl, Function.update_of_ne hq .., fun _ _ => rfl⟩)
      ⟨Function.update_self .., unlocked_ne s p⟩ (fun htold => ?_)
      fun hlock => absurd hlock (unlocked_ne s p)
    cases (Function.update_self ..).symm.trans htold

end State

theorem inv_of_reachable {file : Option (List Byte)} {s : State} (h : Reachable file s) : s.Inv := by
  induction h with
  | refl => exact State.inv_start file
  | tail _ hs ih => exact ih.step hs

/-- Whatever the file says in the beginning, and whenever processes are born, call and die: one
living process at most has been told that no daemon is running, a process is refused the lock
only while another living process is the daemon or about to be told so, the daemon itself is
never told that one is running, and when it is not in the call and its number was written
whole, the file names it, also when the file could not be truncated. -/
theorem one_daemon (file : Option (List Byte)) (s : State) (h : Reachable file s) :
    (∀ p q, s.told p = some false → s.told q = some false → p = q) ∧
      (∀ p fd e s', Exec p s (.setlk fd) (some e) s' → e ≠ .other →
        ∃ q, q ≠ p ∧ s.proc q ≠ .dead ∧ s.Claims q) ∧
      (∀ p, s.told p = some false → s.proc p ≠ .busy (.ret true)) ∧
      ∀ p, s.told p = some false → s.proc p = .idle → s.wrote p = true → s.Names p := by
  have hinv := inv_of_reachable h
  refine ⟨fun p q hp hq => ?_, fun p fd e s' hexec he => ?_, fun p hp hret => ?_,
    fun p hp hidle hwrote => ?_⟩
  · exact Option.some.inj ((hinv.told p hp).symm.trans (hinv.told q hq))
  · cases hexec with
    | @refused _ q _ hlock hq he =>
      refine ⟨q, hq, fun hdead => ?_, hinv.owner q hlock⟩
      have hphase := hinv.phase q
      rw [hdead] at hphase
      exact hphase.2 hlock
    | lockFails => exact absurd rfl he
  · have hat := hinv.phase p
    rw [hret] at hat
    change s.At p (.ret true) at hat
    generalize hprog : Prog.ret true = prog at hat
    cases hat with
    | running hlock => exact hlock (hinv.told p hp)
    | opening | locking | closing | truncating | asking | writing | claimed | failed =>
      cases hprog
  · have hnamed := hinv.phase p
    rw [hidle] at hnamed
    exact hnamed (hinv.told p hp) hwrote

/-- A process becomes the daemon. -/
theorem one_daemon_claimed : ∃ s, Reachable none s ∧ s.told 3 = some false ∧ s.Names 3 := by
  have h₀ : ReflTransGen Step (start none) (start none) := .refl
  have h₁ := h₀.tail (.born (p := 3) rfl)
  have h₂ := h₁.tail (.call (p := 3) rfl)
  have h₃ := h₂.tail (.sys (p := 3) rfl (@Exec.create 3 _ 4 rfl))
  have h₄ := h₃.tail (.sys (p := 3) (c := .setlk 4) rfl (.granted (Or.inl rfl)))
  have h₅ := h₄.tail (.sys (p := 3) (c := .ftruncate 4) rfl .ftruncate)
  have h₆ := h₅.tail (.sys (p := 3) (c := .getpid) rfl .getpid)
  have h₇ := h₆.tail (.sys (p := 3) (c := .write 4 (decimal 3 ++ [0])) rfl
    (@Exec.write 3 _ 4 0 2 _ [] rfl rfl (by decide)))
  have h₈ := h₇.tail (.ret (p := 3) (b := false) rfl)
  obtain ⟨-, -, -, hnames⟩ := one_daemon none _ h₈
  exact ⟨_, h₈, rfl, hnames 3 rfl rfl rfl⟩

end Apue.SingleDaemon
