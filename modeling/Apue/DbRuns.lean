import Apue.DbModel

/-!
The library run alone. `Runs` gives the end of a program together with the files
before each of its writes, which is what a process that is stopped on the way
can leave behind.
-/
namespace Apue.Db

open Programs

section Runs

variable {α β : Type}

def Call.isWrite : Call → Bool
  | .write .. => true
  | _ => false

/-- The files before each write of a program that runs alone. -/
def writeLog : Prog sig α → Files × Pos → List Files
  | .call c k, s =>
    (if c.isWrite then [s.1] else []) ++ writeLog (k (fileCall c s).1) (fileCall c s).2
  | .ret _, _ => []
  | .abort _, _ => []
  | .diverge, _ => []

/-- The program ends with `out` in the state `s'`, after one write on each of the
files in `log`. -/
structure Runs (prog : Prog sig α) (s : Files × Pos) (log : List Files) (out : Outcome α)
    (s' : Files × Pos) : Prop where
  run : prog.run fileCall s = (out, s')
  log : writeLog prog s = log

theorem writeLog_bind (p : Prog sig α) (f : α → Prog sig β) (s : Files × Pos) :
    writeLog (p >>= f) s = writeLog p s ++
      match p.run fileCall s with
      | (.ok a, s') => writeLog (f a) s'
      | _ => [] := by
  induction p generalizing s with
  | ret a => rfl
  | abort msg => rfl
  | diverge => rfl
  | call c k ih => exact (congrArg _ (ih _ _)).trans (List.append_assoc ..).symm

namespace Runs

variable {p : Prog sig α} {f : α → Prog sig β} {s s' s'' : Files × Pos} {log log' : List Files}
variable {out : Outcome β} {a : α}

theorem ret (a : α) (s : Files × Pos) : Runs (.ret a) s [] (.ok a) s := ⟨rfl, rfl⟩

theorem bind (h : Runs p s log (.ok a) s') (h' : Runs (f a) s' log' out s'') :
    Runs (p >>= f) s (log ++ log') out s'' where
  run := by
    rw [Prog.run_bind, h.run]
    exact h'.run
  log := by
    rw [writeLog_bind, h.run, h.log]
    exact congrArg _ h'.log

/-- The rule for a program that writes nothing before the rest. -/
theorem next (h : Runs p s [] (.ok a) s') (h' : Runs (f a) s' log out s'') :
    Runs (p >>= f) s log out s'' := h.bind h'

theorem bind_aborted {msg : String} (h : Runs p s log (.aborted msg) s') :
    Runs (p >>= f) s log (.aborted msg) s' where
  run := by rw [Prog.run_bind, h.run]
  log := by
    rw [writeLog_bind, h.run, h.log]
    exact List.append_nil _

theorem call {c : Call} (hc : c.isWrite = false) {r : c.Ret} (h : fileCall c s = (r, s')) :
    Runs (Prog.call c .ret : Prog sig c.Ret) s [] (.ok r) s' where
  run := by
    simp only [Prog.run, h]
  log := by
    simp only [writeLog, hc, Bool.false_eq_true, if_false, List.nil_append]

theorem check {cond : Prop} [Decidable cond] {msg : String} (h : ¬ cond) (s : Files × Pos) :
    Runs (errDumpIf cond msg) s [] (.ok ()) s := by
  rw [errDumpIf, if_neg h]
  exact ret () s

theorem stop {cond : Prop} [Decidable cond] {msg : String} (h : cond) (s : Files × Pos) :
    Runs (errDumpIf cond msg) s [] (.aborted msg) s := by
  rw [errDumpIf, if_pos h]
  exact ⟨rfl, rfl⟩

theorem lock (fd : Fd) (type : LockType) (start len : ℕ) (s : Files × Pos) :
    Runs (Prog.call (.setlkw fd type start len) .ret : Prog sig ℤ) s [] (.ok (0 : ℤ)) s :=
  call rfl rfl

theorem unlock (fd : Fd) (start len : ℕ) (s : Files × Pos) :
    Runs (unLock fd start len) s [] (.ok (0 : ℤ)) s := call rfl rfl

end Runs

/-- The program ends so, wherever it leaves the offsets. -/
def Goes (prog : Prog sig α) (s : Files × Pos) (log : List Files) (out : Outcome α)
    (files : Files) : Prop := ∃ pos, Runs prog s log out (files, pos)

namespace Goes

variable {p : Prog sig α} {f : α → Prog sig β} {s : Files × Pos} {log log' : List Files}
variable {out : Outcome β} {a : α} {files files' : Files}

theorem bind (h : Goes p s log (.ok a) files) (h' : ∀ pos, Goes (f a) (files, pos) log' out files') :
    Goes (p >>= f) s (log ++ log') out files' := by
  obtain ⟨pos, h⟩ := h
  obtain ⟨pos', h'⟩ := h' pos
  exact ⟨pos', h.bind h'⟩

theorem next (h : Goes p s [] (.ok a) files) (h' : ∀ pos, Goes (f a) (files, pos) log out files') :
    Goes (p >>= f) s log out files' := h.bind h'

theorem bind_aborted {msg : String} (h : Goes p s log (.aborted msg) files) :
    Goes (p >>= f) s log (.aborted msg) files := by
  obtain ⟨pos, h⟩ := h
  exact ⟨pos, h.bind_aborted⟩

/-- The rules for a first part that is known to leave the offsets in one place. -/
theorem of_runs {s' : Files × Pos} (h : Runs p s log (.ok a) s')
    (h' : Goes (f a) s' log' out files) : Goes (p >>= f) s (log ++ log') out files := by
  obtain ⟨pos, h'⟩ := h'
  exact ⟨pos, h.bind h'⟩

theorem of_read {s' : Files × Pos} (h : Runs p s [] (.ok a) s')
    (h' : Goes (f a) s' log out files) : Goes (p >>= f) s log out files := of_runs h h'

theorem ret (a : α) (files : Files) (pos : Pos) : Goes (.ret a) (files, pos) [] (.ok a) files :=
  ⟨pos, Runs.ret a _⟩

theorem check {cond : Prop} [Decidable cond] {msg : String} (h : ¬ cond) (files : Files)
    (pos : Pos) : Goes (errDumpIf cond msg) (files, pos) [] (.ok ()) files := ⟨pos, Runs.check h _⟩

theorem stop {cond : Prop} [Decidable cond] {msg : String} (h : cond) (files : Files)
    (pos : Pos) : Goes (errDumpIf cond msg) (files, pos) [] (.aborted msg) files :=
  ⟨pos, Runs.stop h _⟩

theorem lock (fd : Fd) (type : LockType) (start len : ℕ) (files : Files) (pos : Pos) :
    Goes (Prog.call (.setlkw fd type start len) .ret : Prog sig ℤ) (files, pos) [] (.ok (0 : ℤ))
      files := ⟨pos, Runs.lock ..⟩

theorem unlock (fd : Fd) (start len : ℕ) (files : Files) (pos : Pos) :
    Goes (unLock fd start len) (files, pos) [] (.ok (0 : ℤ)) files := ⟨pos, Runs.unlock ..⟩

end Goes

end Runs

end Apue.Db
