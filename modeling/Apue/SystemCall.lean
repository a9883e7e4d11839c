import Apue.SignalLogic
import Mathlib.Data.Int.Notation

/-!
The system of signals/system.c. While the command runs, its caller ignores SIGINT and SIGQUIT
and blocks SIGCHLD; the command itself is to start with what the caller had. The calls of
sigaction and sigprocmask do not fail.
-/
namespace Apue.SystemCall

open Programs Signals Relation

inductive Sig
  | int
  | quit
  | chld
  | alrm
  | other (signo : ℕ)
  deriving DecidableEq

inductive Forked
  | failed
  | child
  | parent

inductive Waited
  | status (status : ℤ)
  | eintr
  | failed

/-- The other calls of system. -/
inductive Os
  | fork
  | waitpid

def Os.Ret : Os → Type
  | .fork => Forked
  | .waitpid => Waited

def os : Signature := ⟨Os, Os.Ret⟩

/-- What has become of the child; the process may be the child itself. -/
inductive Child
  | none
  | running
  | collected (status : ℤ)
  | lost
  | self
  deriving DecidableEq

def Os.does : (c : Os) → Child → c.Ret → Child → Prop
  | .fork, child, .failed, child' => child' = child
  | .fork, _, .child, child' => child' = .self
  | .fork, _, .parent, child' => child' = .running
  | .waitpid, _, .status st, child' => child' = .collected st
  | .waitpid, child, .eintr, child' => child' = child
  | .waitpid, _, .failed, child' => child' = .lost

def host {H : Type} (fatal : Sig → Bool) (sends : Sig → Prop)
    (effect : H → Sig → (Sig → Action H) → Child → (Sig → Action H) × Child) :
    Kernel Sig H Child os where
  alrm := .alrm
  fatal := fatal
  sends := sends
  effect := effect
  alarms _ _ timer := timer
  does := Os.does

variable {H : Type}

def fork : Prog (calls Sig H os) Forked := other (O := os) Os.fork

def waitpid : Prog (calls Sig H os) Waited := other (O := os) Os.waitpid

def chldmask : SigSet Sig := fun s => s = .chld

/-- The loop around waitpid, which goes on after EINTR. -/
def collect : ℕ → Prog (calls Sig H os) ℤ
  | 0 => .diverge
  | fuel + 1 => do
    match ← waitpid with
    | .status st => return st
    | .eintr => collect fuel
    | .failed => return -1

/-- How system ends: it returns in the caller, or the child is at its execl. -/
inductive Ended
  | returns (status : ℤ)
  | execl

def restore (saveintr savequit : Action H) (savemask : SigSet Sig) :
    Prog (calls Sig H os) Unit := do
  let _ ← sigaction Sig.int saveintr
  let _ ← sigaction Sig.quit savequit
  let _ ← sigprocmask .setmask savemask
  return ()

def system (fuel : ℕ) (cmdstring : Option String) : Prog (calls Sig H os) Ended :=
  match cmdstring with
  | none => return .returns 1
  | some _ => do
    let saveintr : Action H ← sigaction Sig.int .ign
    let savequit : Action H ← sigaction Sig.quit .ign
    let savemask ← sigprocmask .block chldmask
    match ← fork with
    | .failed =>
      restore saveintr savequit savemask
      return .returns (-1)
    | .child =>
      restore saveintr savequit savemask
      return .execl
    | .parent =>
      let status ← collect fuel
      restore saveintr savequit savemask
      return .returns status

/-- What the value is that system returns. -/
def Result (cmdstring : Option String) (child : Child) (n : ℤ) : Prop :=
  match cmdstring, child with
  | none, _ => n = 1
  | some _, .collected status => n = status
  | some _, .running | some _, .self => False
  | some _, _ => n = -1

def Answers (cmdstring : Option String) (child : Child) : Ended → Prop
  | .returns n => Result cmdstring child n
  | .execl => child = .self

/-- The signals that are kept from the caller. -/
def Kept (s : Sig) : Prop := s = .int ∨ s = .quit ∨ s = .chld

structure At (saveintr savequit : Action H) (mask : SigSet Sig) (child : Child)
    (p : Proc Sig H Child) : Prop where
  int : p.action .int = saveintr
  quit : p.action .quit = savequit
  mask : p.mask = mask
  child : p.data = child

def spec (cmdstring : Option String) (p₀ : Proc Sig H Child) : Spec Sig H Child Ended where
  post e p := At (p₀.action .int) (p₀.action .quit) p₀.mask p.data p ∧ Answers cmdstring p.data e
  dies s p := p.data = .running → ¬ Kept s
  hears s p := p.data = .running → ¬ Kept s
  total := False

/-- The handlers leave the actions of SIGINT and SIGQUIT alone, and the child. -/
def Polite (effect : H → Sig → (Sig → Action H) → Child → (Sig → Action H) × Child) : Prop :=
  ∀ h s act child, (effect h s act child).1 .int = act .int ∧
    (effect h s act child).1 .quit = act .quit ∧ (effect h s act child).2 = child

section Proof

variable {fatal : Sig → Bool} {sends : Sig → Prop}
  {effect : H → Sig → (Sig → Action H) → Child → (Sig → Action H) × Child}
  {cmdstring : Option String} {p p₀ : Proc Sig H Child} {saveintr savequit : Action H}
  {mask : SigSet Sig} {child : Child}

/-- Where the child runs, the three signals are kept from the caller. -/
theorem stable_at (hK : Polite effect)
    (hkept : child = .running → saveintr = .ign ∧ savequit = .ign ∧ mask .chld = true) :
    Stable (host fatal sends effect) (spec cmdstring p₀) (At saveintr savequit mask child) where
  quiet := by
    rintro p p' e h hq
    obtain ⟨haction, hmask, hdata⟩ := hq.keeps
    exact ⟨by rw [haction, h.int], by rw [haction, h.quit], hmask.trans h.mask, hdata.trans h.child⟩
  dies := by
    rintro p s h ⟨⟨-, hopen⟩, hdfl, -⟩ hrunning
    obtain ⟨rfl, rfl, hchld⟩ := hkept (h.child.symm.trans hrunning)
    rintro (rfl | rfl | rfl)
    · rw [h.int] at hdfl
      cases hdfl
    · rw [h.quit] at hdfl
      cases hdfl
    · rw [h.mask, hchld] at hopen
      cases hopen
  hears := by
    rintro p p' s h (⟨⟨-, hopen⟩, hact⟩)
    refine ⟨fun hrunning => ?_, (hK _ _ _ _).1.trans h.int, (hK _ _ _ _).2.1.trans h.quit, h.mask,
      (hK _ _ _ _).2.2.trans h.child⟩
    obtain ⟨rfl, rfl, hchld⟩ := hkept (h.child.symm.trans hrunning)
    rintro (rfl | rfl | rfl)
    · rw [h.int] at hact
      cases hact
    · rw [h.quit] at hact
      cases hact
    · rw [h.mask, hchld] at hopen
      cases hopen

/-- The caller gets back what it had, and so does the child. -/
theorem safe_restore (hK : Polite effect) (child : Child) {e : Ended} (hchild : child ≠ .running)
    (he : Answers cmdstring child e) (hp : At .ign .ign mask child p) :
    Safe (host fatal sends effect) (spec cmdstring p₀)
      (do restore (p₀.action .int) (p₀.action .quit) p₀.mask; return e) p := by
  refine ⟨_, hp, stable_at hK fun h => absurd h hchild, ?_⟩
  intro p hp r p' mode hexec
  cases hexec
  refine ⟨At (p₀.action .int) .ign mask child, ⟨setAction_self .., ?_, hp.mask, hp.child⟩,
    stable_at hK fun h => absurd h hchild, ?_⟩
  · exact (setAction_of_ne _ _ (by decide)).trans hp.quit
  intro p hp r p' mode hexec
  cases hexec
  refine ⟨At (p₀.action .int) (p₀.action .quit) mask child,
    ⟨?_, setAction_self .., hp.mask, hp.child⟩, stable_at hK fun h => absurd h hchild, ?_⟩
  · exact (setAction_of_ne _ _ (by decide)).trans hp.int
  intro p hp r p' mode hexec
  cases hexec
  refine ⟨At (p₀.action .int) (p₀.action .quit) p₀.mask child, ⟨hp.int, hp.quit, rfl, hp.child⟩,
    stable_at hK fun h => absurd h hchild, fun p hp => ⟨⟨hp.int, hp.quit, hp.mask, rfl⟩, ?_⟩⟩
  rw [hp.child]
  exact he

/-- The loop around waitpid ends when the child has been collected, or lost. -/
theorem safe_collect (hK : Polite effect) {cmd : String} {f : ℤ → Prog (calls Sig H os) Ended}
    (hmask : mask .chld = true)
    (hf : ∀ p n child, child ≠ .running → Answers (some cmd) child (.returns n) →
      At .ign .ign mask child p → Safe (host fatal sends effect) (spec (some cmd) p₀) (f n) p)
    (fuel : ℕ) (hp : At .ign .ign mask .running p) :
    Safe (host fatal sends effect) (spec (some cmd) p₀) (collect fuel >>= f) p := by
  induction fuel generalizing p with
  | zero => exact ⟨_, hp, stable_at hK fun _ => ⟨rfl, rfl, hmask⟩, fun _ _ h => h⟩
  | succ fuel ih =>
    refine ⟨_, hp, stable_at hK fun _ => ⟨rfl, rfl, hmask⟩, ?_⟩
    intro p hp r p' mode hexec
    cases hexec with
    | other hd =>
      cases r with
      | status st =>
        exact hf _ st (.collected st) (fun he => by cases he) rfl ⟨hp.int, hp.quit, hp.mask, hd⟩
      | eintr => exact ih ⟨hp.int, hp.quit, hp.mask, hd.trans hp.child⟩
      | failed => exact hf _ (-1) .lost (fun he => by cases he) rfl ⟨hp.int, hp.quit, hp.mask, hd⟩

theorem system_safe (hK : Polite effect) (fuel : ℕ) (hp : p₀.data = .none) :
    Safe (host fatal sends effect) (spec cmdstring p₀) (system fuel cmdstring) p₀ := by
  have hstart : At (p₀.action .int) (p₀.action .quit) p₀.mask .none p₀ := ⟨rfl, rfl, rfl, hp⟩
  have hnone : ∀ {aint aquit : Action H} {m : SigSet Sig},
      Stable (host fatal sends effect) (spec cmdstring p₀) (At aint aquit m .none) :=
    stable_at hK fun he => by cases he
  cases cmdstring with
  | none =>
    exact ⟨_, hstart, hnone, fun p hp => ⟨⟨hp.int, hp.quit, hp.mask, rfl⟩, rfl⟩⟩
  | some cmd =>
    refine ⟨_, hstart, hnone, ?_⟩
    intro p₁ h₁ r p' mode hexec
    cases hexec
    refine ⟨At .ign (p₀.action .quit) p₀.mask .none,
      ⟨setAction_self .., (setAction_of_ne _ _ (by decide)).trans h₁.quit, h₁.mask, h₁.child⟩,
      hnone, ?_⟩
    intro p₂ h₂ r p' mode hexec
    cases hexec
    refine ⟨At .ign .ign p₀.mask .none,
      ⟨(setAction_of_ne _ _ (by decide)).trans h₂.int, setAction_self .., h₂.mask, h₂.child⟩,
      hnone, ?_⟩
    intro p₃ h₃ r p' mode hexec
    cases hexec
    refine ⟨At .ign .ign (How.block.apply chldmask p₀.mask) .none,
      ⟨h₃.int, h₃.quit, congrArg (How.block.apply chldmask) h₃.mask, h₃.child⟩, hnone, ?_⟩
    intro p₄ h₄ r p' mode hexec
    rw [h₁.int, h₂.quit, h₃.mask]
    have hchld : How.block.apply chldmask p₀.mask .chld = true := by simp [How.apply, chldmask]
    cases hexec with
    | other hd =>
      cases r with
      | failed =>
        exact safe_restore hK .none (fun he => by cases he) rfl
          ⟨h₄.int, h₄.quit, h₄.mask, hd.trans h₄.child⟩
      | child =>
        exact safe_restore hK .self (fun he => by cases he) rfl ⟨h₄.int, h₄.quit, h₄.mask, hd⟩
      | parent =>
        refine safe_collect hK hchld (fun p n child hne hanswers hp => ?_) fuel
          ⟨h₄.int, h₄.quit, h₄.mask, hd⟩
        exact safe_restore hK child hne hanswers hp

/-- Whatever signals come: when system returns, or the child starts the command, SIGINT, SIGQUIT
and the mask are what they were, and the value returned is the status of the command, or -1 if it
could not be started or waited for. While it runs, neither SIGINT nor SIGQUIT nor SIGCHLD has any
effect on the caller. -/
theorem system_restores (hK : Polite effect) {fuel : ℕ} (hp : p.data = .none)
    {s : State Sig H Child os Ended}
    (hrun : Runs (host fatal sends effect) ⟨p, .running, system fuel cmdstring⟩ s) :
    (∀ e, s.mode = .running → s.prog = .ret e →
      s.proc.action .int = p.action .int ∧ s.proc.action .quit = p.action .quit ∧
        s.proc.mask = p.mask ∧ Answers cmdstring s.proc.data e) ∧
      ∀ sig s', Step (host fatal sends effect) s (.deliver sig) s' → s.proc.data = .running →
        sig ≠ .int ∧ sig ≠ .quit ∧ sig ≠ .chld := by
  have hsafe : Holds (host fatal sends effect) (spec cmdstring p)
      ⟨p, .running, system fuel cmdstring⟩ := system_safe hK fuel hp
  have hholds := hsafe.runs hrun
  refine ⟨fun e hm he => ?_, fun sig s' hstep hrunning => ?_⟩
  · obtain ⟨hat, hanswers⟩ := hholds.returned hm he
    exact ⟨hat.int, hat.quit, hat.mask, hanswers⟩
  · have hno : ¬ Kept sig := by
      rcases hholds.delivers hstep with h | h
      · exact h hrunning
      · exact h hrunning
    exact ⟨fun h => hno (.inl h), fun h => hno (.inr (.inl h)), fun h => hno (.inr (.inr h))⟩

end Proof

/-- The signals have their default actions, and the handlers do nothing. -/
def plain : Kernel Sig Unit Child os :=
  host (fun _ => true) (fun _ => True) fun _ _ act child => (act, child)

def idle : Proc Sig Unit Child :=
  ⟨fun _ => .dfl, fun _ => false, fun _ => false, none, 0, .none⟩

theorem exec_fork (p : Proc Sig Unit Child) : Exec plain (Call.other (O := os) Os.fork) p
    Forked.parent { p with data := Child.running } .running := Exec.other rfl

theorem exec_waitpid (p : Proc Sig Unit Child) (status : ℤ) :
    Exec plain (Call.other (O := os) Os.waitpid) p (Waited.status status)
      { p with data := Child.collected status } .running := Exec.other rfl

/-- The command exits with status 7. -/
theorem system_restores_seven : ∃ s : State Sig Unit Child os Ended,
    Runs plain ⟨idle, .running, system 1 (some "exit 7")⟩ s ∧ s.prog = .ret (.returns 7) ∧
      s.proc.action Sig.int = .dfl ∧ s.proc.action Sig.quit = .dfl ∧ s.proc.mask = idle.mask := by
  have hopen : ∀ {p : Proc Sig Unit Child}, (∀ sig, p.pending sig = false) → ∀ sig,
      p.Deliverable sig → plain.ignores (p.action sig) sig = true := fun h sig hs =>
    absurd ((h sig).symm.trans hs.1) (by decide)
  have hquiet : ∀ sig, (plain.setAction (plain.setAction idle Sig.int .ign) Sig.quit
      .ign).pending sig = false := setAction_pending (setAction_pending fun _ => rfl)
  have h₁ : Runs plain ⟨idle, .running, system 1 (some "exit 7")⟩ _ :=
    .single ⟨.own, .call rfl rfl (.sigaction Sig.int .ign)⟩
  have h₂ := h₁.tail ⟨.own, .call rfl rfl (.sigaction Sig.quit .ign)⟩
  have h₃ := h₂.tail ⟨.own, .call rfl rfl (.sigprocmask .block chldmask)⟩
  have h₄ := h₃.tail ⟨.own, .masked rfl (hopen hquiet)⟩
  have h₅ := h₄.tail ⟨.own, .call rfl rfl (exec_fork _)⟩
  have h₆ := h₅.tail ⟨.own, .call rfl rfl (exec_waitpid _ 7)⟩
  have h₇ := h₆.tail ⟨.own, .call rfl rfl (.sigaction Sig.int .dfl)⟩
  have h₈ := h₇.tail ⟨.own, .call rfl rfl (.sigaction Sig.quit .dfl)⟩
  have h₉ := h₈.tail ⟨.own, .call rfl rfl (.sigprocmask .setmask idle.mask)⟩
  have h₁₀ := h₉.tail ⟨.own, .masked rfl (hopen hquiet)⟩
  obtain ⟨hint, hquit, hmask, -⟩ :=
    (system_restores (fun _ _ _ _ => ⟨rfl, rfl, rfl⟩) rfl h₁₀).1 (.returns 7) rfl rfl
  exact ⟨_, h₁₀, rfl, hint, hquit, hmask⟩

end Apue.SystemCall
