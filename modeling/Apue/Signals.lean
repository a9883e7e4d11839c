import Apue.Programs
import Mathlib.Data.Nat.Notation
import Mathlib.Logic.Function.Basic
import Mathlib.Logic.Relation

/-!
A process and its signals. The process runs a program whose calls choose what is done on a
signal, block signals, set the timer, wait for a signal and send one to the process itself.
Between the calls other processes send signals, time passes, and the signals that are pending
and not blocked are delivered: they have no effect, they end the process, or a handler runs
and returns. A handler may change the actions of signals, the timer and the data. The handlers
of one signal do not interrupt each other. sigprocmask does not return while a signal that it
has unblocked is still to be delivered. Signals that stop a process or make it go on, and
handlers that do not return, are left out.
-/
namespace Apue.Signals

open Programs Relation

inductive Action (H : Type)
  | dfl
  | ign
  | catches (h : H)

abbrev SigSet (S : Type) := S → Bool

inductive How
  | block
  | unblock
  | setmask

def How.apply {S : Type} (how : How) (set mask : SigSet S) : SigSet S :=
  match how with
  | .block => fun s => mask s || set s
  | .unblock => fun s => mask s && !set s
  | .setmask => set

/-- The calls of a process. What `other` calls do is up to the program. -/
inductive Call (S H : Type) (O : Signature)
  | sigaction (sig : S) (act : Action H)
  | getaction (sig : S)
  | sigprocmask (how : How) (set : SigSet S)
  | alarm (seconds : ℕ)
  | sigsuspend (mask : SigSet S)
  | pause
  | kill (sig : S)
  | other (c : O.Call)

def Call.Ret {S H : Type} {O : Signature} : Call S H O → Type
  | .sigaction _ _ | .getaction _ => Action H
  | .sigprocmask _ _ => SigSet S
  | .alarm _ => ℕ
  | .sigsuspend _ | .pause | .kill _ => Unit
  | .other c => O.Ret c

def calls (S H : Type) (O : Signature) : Signature := ⟨Call S H O, Call.Ret⟩

section Calls

variable {S H : Type} {O : Signature}

def sigaction (sig : S) (act : Action H) : Prog (calls S H O) (Action H) :=
  .call (.sigaction sig act) .ret

/-- sigaction without a new action. -/
def getaction (sig : S) : Prog (calls S H O) (Action H) := .call (.getaction sig) .ret

def sigprocmask (how : How) (set : SigSet S) : Prog (calls S H O) (SigSet S) :=
  .call (.sigprocmask how set) .ret

def alarm (seconds : ℕ) : Prog (calls S H O) ℕ := .call (.alarm seconds) .ret

def sigsuspend (mask : SigSet S) : Prog (calls S H O) Unit := .call (.sigsuspend mask) .ret

def pause : Prog (calls S H O) Unit := .call .pause .ret

def kill (sig : S) : Prog (calls S H O) Unit := .call (.kill sig) .ret

def other (c : O.Call) : Prog (calls S H O) (O.Ret c) := .call (.other c) .ret

end Calls

/-- What the system knows of the process, and the data of its handlers and other calls. The
timer is the seconds that are left. -/
structure Proc (S H D : Type) where
  action : S → Action H
  mask : SigSet S
  pending : SigSet S
  timer : Option ℕ
  clock : ℕ
  data : D

/-- The signal of the timer, the signals that end a process by default, those that other
processes may send, the handlers, with what they do to the timer in `alarms`, and the other
calls. -/
structure Kernel (S H D : Type) (O : Signature) where
  alrm : S
  fatal : S → Bool
  sends : S → Prop
  effect : H → S → (S → Action H) → D → (S → Action H) × D
  alarms : H → S → Option ℕ → Option ℕ
  does : (c : O.Call) → D → O.Ret c → D → Prop

inductive Event (S : Type)
  | own
  | tick
  | raise (s : S)
  | discard (s : S)
  | deliver (s : S)

/-- No other process takes part in it. -/
def Event.Alone {S : Type} : Event S → Prop
  | .raise _ => False
  | _ => True

/-- What the process is doing: its next call, a sigprocmask that has set the mask, waiting with
a mask to go back to, or a kill of itself, which does not return before a signal has been
delivered. -/
inductive Mode (S : Type)
  | running
  | masking
  | suspended (saved : SigSet S) (woken : Bool)
  | killing (s : S)
  | dead (s : S)

structure State (S H D : Type) (O : Signature) (α : Type) where
  proc : Proc S H D
  mode : Mode S
  prog : Prog (calls S H O) α

variable {S H D α : Type} {O : Signature}

def Proc.Deliverable (p : Proc S H D) (s : S) : Prop := p.pending s = true ∧ p.mask s = false

section Machine

variable [DecidableEq S]

def Proc.raise (p : Proc S H D) (s : S) : Proc S H D :=
  { p with pending := Function.update p.pending s true }

/-- The signal is not pending any more. -/
def Proc.take (p : Proc S H D) (s : S) : Proc S H D :=
  { p with pending := Function.update p.pending s false }

variable (K : Kernel S H D O)

omit [DecidableEq S] in
def Kernel.ignores (act : Action H) (s : S) : Bool :=
  match act with
  | .dfl => !K.fatal s
  | .ign => true
  | .catches _ => false

/-- A signal that is pending and from now on ignored is discarded. -/
def Kernel.setAction (p : Proc S H D) (s : S) (act : Action H) : Proc S H D :=
  { p with
    action := Function.update p.action s act
    pending := if K.ignores act s = true then Function.update p.pending s false else p.pending }

/-- A second goes by. -/
def Kernel.tick (p : Proc S H D) : Proc S H D :=
  if p.timer.any (· ≤ 1) = true then { p with timer := none, clock := p.clock + 1 }.raise K.alrm
  else { p with timer := p.timer.map (· - 1), clock := p.clock + 1 }

def Proc.setTimer (p : Proc S H D) (seconds : ℕ) : Proc S H D :=
  { p with timer := if seconds = 0 then none else some seconds }

def Kernel.handle (p : Proc S H D) (h : H) (s : S) : Proc S H D :=
  { p.take s with
    action := (K.effect h s p.action p.data).1
    timer := K.alarms h s p.timer
    data := (K.effect h s p.action p.data).2 }

/-- What happens without a handler. -/
inductive Quiet : Proc S H D → Event S → Proc S H D → Prop
  | raise {p : Proc S H D} {s : S} (hs : K.sends s) : Quiet p (.raise s) (p.raise s)
  | tick {p : Proc S H D} : Quiet p .tick (K.tick p)
  | ignored {p : Proc S H D} {s : S} (hs : p.Deliverable s)
      (hign : K.ignores (p.action s) s = true) : Quiet p (.discard s) (p.take s)

inductive Catches : Proc S H D → S → Proc S H D → Prop
  | handler {p : Proc S H D} {s : S} {h : H} (hs : p.Deliverable s)
      (hact : p.action s = .catches h) : Catches p s (K.handle p h s)

omit [DecidableEq S] in
def Kernel.Kills (p : Proc S H D) (s : S) : Prop :=
  p.Deliverable s ∧ p.action s = .dfl ∧ K.fatal s = true

/-- What a call does, and how the process goes on. -/
inductive Exec : (c : Call S H O) → Proc S H D → c.Ret → Proc S H D → Mode S → Prop
  | sigaction {p : Proc S H D} (s : S) (act : Action H) :
      Exec (.sigaction s act) p (p.action s) (K.setAction p s act) .running
  | getaction {p : Proc S H D} (s : S) : Exec (.getaction s) p (p.action s) p .running
  | sigprocmask {p : Proc S H D} (how : How) (set : SigSet S) :
      Exec (.sigprocmask how set) p p.mask { p with mask := how.apply set p.mask } .masking
  | alarm {p : Proc S H D} (seconds : ℕ) :
      Exec (.alarm seconds) p (p.timer.getD 0) (p.setTimer seconds) .running
  | sigsuspend {p : Proc S H D} (mask : SigSet S) :
      Exec (.sigsuspend mask) p () { p with mask := mask } (.suspended p.mask false)
  | pause {p : Proc S H D} : Exec .pause p () p (.suspended p.mask false)
  | kill {p : Proc S H D} (s : S) : Exec (.kill s) p () (p.raise s) (.killing s)
  | other {p : Proc S H D} {c : O.Call} {r : O.Ret c} {d : D} (hd : K.does c p.data r d) :
      Exec (.other c) p r { p with data := d } .running

inductive Step : State S H D O α → Event S → State S H D O α → Prop
  | call {s : State S H D O α} {c : Call S H O} {k : c.Ret → Prog (calls S H O) α} {r : c.Ret}
      {p : Proc S H D} {mode : Mode S} (hm : s.mode = .running) (hp : s.prog = .call c k)
      (he : Exec K c s.proc r p mode) : Step s .own ⟨p, mode, k r⟩
  | quiet {s : State S H D O α} {e : Event S} {p : Proc S H D} (hm : ∀ sig, s.mode ≠ .dead sig)
      (hq : Quiet K s.proc e p) : Step s e { s with proc := p }
  | handle {s : State S H D O α} {sig : S} {p : Proc S H D} (hm : s.mode = .running)
      (hc : Catches K s.proc sig p) : Step s (.deliver sig) { s with proc := p }
  | wake {s : State S H D O α} {sig : S} {p : Proc S H D} {saved : SigSet S} {woken : Bool}
      (hm : s.mode = .suspended saved woken) (hc : Catches K s.proc sig p) :
      Step s (.deliver sig) { s with proc := p, mode := .suspended saved true }
  | answer {s : State S H D O α} {sig sig' : S} {p : Proc S H D} (hm : s.mode = .killing sig')
      (hc : Catches K s.proc sig p) :
      Step s (.deliver sig) { s with proc := p, mode := .running }
  | die {s : State S H D O α} {sig : S} (hm : ∀ sig, s.mode ≠ .dead sig)
      (hd : K.Kills s.proc sig) : Step s (.deliver sig) { s with mode := .dead sig }
  | unblock {s : State S H D O α} {sig : S} {p : Proc S H D} (hm : s.mode = .masking)
      (hc : Catches K s.proc sig p) :
      Step s (.deliver sig) { s with proc := p, mode := .running }
  | masked {s : State S H D O α} (hm : s.mode = .masking)
      (hn : ∀ sig, s.proc.Deliverable sig → K.ignores (s.proc.action sig) sig = true) :
      Step s .own { s with mode := .running }
  | resume {s : State S H D O α} {saved : SigSet S} (hm : s.mode = .suspended saved true) :
      Step s .own { s with proc := { s.proc with mask := saved }, mode := .running }
  | killed {s : State S H D O α} {sig : S} (hm : s.mode = .killing sig)
      (hn : ¬ s.proc.Deliverable sig) : Step s .own { s with mode := .running }

def Runs : State S H D O α → State S H D O α → Prop :=
  ReflTransGen fun s s' => ∃ e, Step K s e s'

/-- A run without other processes. -/
def RunsAlone : State S H D O α → State S H D O α → Prop :=
  ReflTransGen fun s s' => ∃ e : Event S, e.Alone ∧ Step K s e s'

section Fields

variable {K} {p p' : Proc S H D} {e : Event S} {s : S}

theorem setAction_self (p : Proc S H D) (s : S) (act : Action H) :
    (K.setAction p s act).action s = act := Function.update_self ..

theorem setAction_of_ne (p : Proc S H D) {r s : S} (act : Action H) (h : r ≠ s) :
    (K.setAction p s act).action r = p.action r := Function.update_of_ne h ..

theorem setAction_pending {act : Action H} (h : ∀ s, p.pending s = false) (r : S) :
    (K.setAction p s act).pending r = false := by
  change (if K.ignores act s = true then Function.update p.pending s false
    else p.pending) r = false
  split
  · by_cases hr : r = s
    · rw [hr]
      exact Function.update_self ..
    · exact (Function.update_of_ne hr _ _).trans (h r)
  · exact h r

theorem tick_eq (p : Proc S H D) : (K.tick p).action = p.action ∧ (K.tick p).mask = p.mask ∧
    (K.tick p).clock = p.clock + 1 ∧ (K.tick p).data = p.data := by
  unfold Kernel.tick
  split <;> exact ⟨rfl, rfl, rfl, rfl⟩

theorem tick_timer (p : Proc S H D) :
    (K.tick p).timer = if p.timer.any (· ≤ 1) = true then none else p.timer.map (· - 1) := by
  unfold Kernel.tick
  split <;> rfl

/-- Without a handler a process keeps what it has chosen. -/
theorem Quiet.keeps (h : Quiet K p e p') : p'.action = p.action ∧ p'.mask = p.mask ∧
    p'.data = p.data := by
  cases h with
  | raise hs => exact ⟨rfl, rfl, rfl⟩
  | tick =>
    obtain ⟨haction, hmask, -, hdata⟩ := tick_eq (K := K) p
    exact ⟨haction, hmask, hdata⟩
  | ignored hs hign => exact ⟨rfl, rfl, rfl⟩

/-- Only a second that goes by moves the clock and the timer. -/
theorem Quiet.time (h : Quiet K p e p') :
    p'.timer = p.timer ∧ p'.clock = p.clock ∨
      p'.timer = (K.tick p).timer ∧ p'.clock = p.clock + 1 := by
  cases h with
  | raise hs => exact .inl ⟨rfl, rfl⟩
  | tick => exact .inr ⟨rfl, (tick_eq p).2.2.1⟩
  | ignored hs hign => exact .inl ⟨rfl, rfl⟩

/-- A pending signal stays pending until it is delivered. -/
theorem Quiet.pending (h : Quiet K p e p') (hs : p.pending s = true)
    (hkeep : K.ignores (p.action s) s = false ∨ p.mask s = true) : p'.pending s = true := by
  have hupdate : ∀ r, Function.update p.pending r true s = true := by
    intro r
    by_cases hr : s = r
    · rw [hr]
      exact Function.update_self ..
    · rwa [Function.update_of_ne hr]
  cases h with
  | @raise r hr => exact hupdate r
  | tick =>
    unfold Kernel.tick
    split
    · exact hupdate K.alrm
    · exact hs
  | @ignored r hr hign =>
    have hne : s ≠ r := by
      rintro rfl
      rcases hkeep with hkeep | hkeep
      · rw [hign] at hkeep
        cases hkeep
      · rw [hr.2] at hkeep
        cases hkeep
    exact (Function.update_of_ne hne _ _).trans hs

/-- A timer that is over has sent its signal. -/
theorem Quiet.fires (h : Quiet K p e p') (hp : p.timer ≠ none) (hp' : p'.timer = none) :
    p'.pending K.alrm = true := by
  cases h with
  | raise hr => exact absurd hp' hp
  | tick =>
    unfold Kernel.tick at hp' ⊢
    split
    · exact Function.update_self ..
    · rename_i hno
      rw [if_neg hno] at hp'
      exact absurd (Option.map_eq_none_iff.mp hp') hp
  | ignored hr hign => exact absurd hp' hp

theorem Catches.keeps (h : Catches K p s p') : p'.mask = p.mask ∧ p'.clock = p.clock := by
  cases h with
  | handler hs hact => exact ⟨rfl, rfl⟩

/-- Handlers that do not touch the timer. -/
theorem Catches.timer (hK : ∀ h s t, K.alarms h s t = t) (h : Catches K p s p') :
    p'.timer = p.timer := by
  cases h with
  | handler hs hact => exact hK _ _ _

theorem Catches.pending (h : Catches K p s p') {r : S} (hr : r ≠ s) :
    p'.pending r = p.pending r := by
  cases h with
  | handler hs hact => exact Function.update_of_ne hr _ _

theorem Catches.deliverable (h : Catches K p s p') : p.Deliverable s := by
  cases h with
  | handler hs hact => exact hs

end Fields

end Machine

end Apue.Signals
