import Apue.Signals

/-!
Reasoning about a process and its signals. Before each call stands an assertion that no signal
and no second that goes by can make false; from it the call leads to the next one. Where the
process waits there are two of them, before and after the first signal that is caught. What
is shown in this way holds in every run, and if each wait can end without another process,
then the process can always come to its end without one.
-/
namespace Apue.Signals

open Programs Relation

/-- What is to be shown: the state where the program returns a value, where a signal ends the
process, and where it runs a handler; `total` says that every wait is to end by itself. -/
structure Spec (S H D α : Type) where
  post : α → Proc S H D → Prop
  dies : S → Proc S H D → Prop
  hears : S → Proc S H D → Prop
  total : Prop

variable {S H D α : Type} {O : Signature} [DecidableEq S]

structure Quietly (K : Kernel S H D O) (spec : Spec S H D α) (A : Proc S H D → Prop) : Prop where
  quiet : ∀ {p p' : Proc S H D} {e : Event S}, A p → Quiet K p e p' → A p'
  dies : ∀ {p : Proc S H D} {s : S}, A p → K.Kills p s → spec.dies s p

/-- An assertion that nothing can disturb between two calls. -/
structure Stable (K : Kernel S H D O) (spec : Spec S H D α) (A : Proc S H D → Prop) : Prop
    extends Quietly K spec A where
  hears : ∀ {p p' : Proc S H D} {s : S}, A p → Catches K p s p' → spec.hears s p ∧ A p'

/-- Without another process some signal is caught. -/
def Wakes (K : Kernel S H D O) (p : Proc S H D) : Prop :=
  ∃ p' p'' s, ReflTransGen (fun p p' => ∃ e : Event S, e.Alone ∧ Quiet K p e p') p p' ∧
    Catches K p' s p''

/-- The assertions while the process waits, before and after the first handler. -/
structure Waits (K : Kernel S H D O) (spec : Spec S H D α) (W V : Proc S H D → Prop) : Prop
    extends Quietly K spec W where
  hears : ∀ {p p' : Proc S H D} {s : S}, W p → Catches K p s p' → spec.hears s p ∧ V p'
  wakes : spec.total → ∀ {p : Proc S H D}, W p → Wakes K p

structure Woken (K : Kernel S H D O) (spec : Spec S H D α) (saved : SigSet S)
    (B V : Proc S H D → Prop) : Prop extends Stable K spec V where
  resume : ∀ {p : Proc S H D}, V p → B { p with mask := saved }

/-- The assertion while a kill has not returned. -/
structure Sends (K : Kernel S H D O) (spec : Spec S H D α) (sig : S)
    (B W : Proc S H D → Prop) : Prop extends Quietly K spec W where
  hears : ∀ {p p' : Proc S H D} {s : S}, W p → Catches K p s p' → spec.hears s p ∧ B p'
  done : ∀ {p : Proc S H D}, W p → ¬ p.Deliverable sig → B p

variable (K : Kernel S H D O) (spec : Spec S H D α)

/-- The process will be at its next call with `B`. -/
def Leads (B : Proc S H D → Prop) : Mode S → Proc S H D → Prop
  | .running, p => B p
  | .masking, p => B p
  | .suspended saved false, p => ∃ W V, W p ∧ Waits K spec W V ∧ Woken K spec saved B V
  | .suspended saved true, p => ∃ V, V p ∧ Woken K spec saved B V
  | .killing sig, p => ∃ W, W p ∧ Sends K spec sig B W
  | .dead sig, p => spec.dies sig p

/-- An assertion that nothing can disturb holds, and from it follows `Q`. -/
def Settled (Q : Proc S H D → Prop) (p : Proc S H D) : Prop :=
  ∃ A : Proc S H D → Prop, A p ∧ Stable K spec A ∧ ∀ p, A p → Q p

/-- The next call leads to where the rest of the program is safe. -/
def Next : Prog (calls S H O) α → Proc S H D → Prop
  | .ret a, p => spec.post a p
  | .abort _, _ => ¬ spec.total
  | .diverge, _ => ¬ spec.total
  | .call c k, p => ∀ r p' mode, Exec K c p r p' mode →
      Leads K spec (Settled K spec fun q => Next (k r) q) mode p'

def Safe (prog : Prog (calls S H O) α) : Proc S H D → Prop := Settled K spec (Next K spec prog)

/-- What is known in every state of a run. -/
def Holds (s : State S H D O α) : Prop := Leads K spec (Safe K spec s.prog) s.mode s.proc

def State.Finished (s : State S H D O α) : Prop :=
  (∃ sig, s.mode = .dead sig) ∨ s.mode = .running ∧ ∃ a, s.prog = .ret a

variable {K spec} {A B Q : Proc S H D → Prop} {mode : Mode S} {p p' : Proc S H D} {e : Event S}
  {sig : S} {s s' s₀ : State S H D O α}

theorem Settled.quiet (h : Settled K spec Q p) (hq : Quiet K p e p') : Settled K spec Q p' := by
  obtain ⟨A, hA, hstable, himp⟩ := h
  exact ⟨A, hstable.quiet hA hq, hstable, himp⟩

theorem Settled.dies (h : Settled K spec Q p) (hk : K.Kills p sig) : spec.dies sig p := by
  obtain ⟨A, hA, hstable, -⟩ := h
  exact hstable.dies hA hk

theorem Settled.hears (h : Settled K spec Q p) (hc : Catches K p sig p') :
    spec.hears sig p ∧ Settled K spec Q p' := by
  obtain ⟨A, hA, hstable, himp⟩ := h
  obtain ⟨hhears, hA'⟩ := hstable.hears hA hc
  exact ⟨hhears, A, hA', hstable, himp⟩

theorem Settled.here (h : Settled K spec Q p) : Q p := by
  obtain ⟨A, hA, -, himp⟩ := h
  exact himp p hA

theorem Leads.quiet (h : Leads K spec (Settled K spec Q) mode p) (hm : ∀ sig, mode ≠ .dead sig)
    (hq : Quiet K p e p') : Leads K spec (Settled K spec Q) mode p' := by
  cases mode with
  | running | masking => exact Settled.quiet h hq
  | suspended saved woken =>
    cases woken with
    | false =>
      obtain ⟨W, V, hW, hwaits, hwoken⟩ := h
      exact ⟨W, V, hwaits.quiet hW hq, hwaits, hwoken⟩
    | true =>
      obtain ⟨V, hV, hwoken⟩ := h
      exact ⟨V, hwoken.quiet hV hq, hwoken⟩
  | killing sig =>
    obtain ⟨W, hW, hsends⟩ := h
    exact ⟨W, hsends.quiet hW hq, hsends⟩
  | dead sig => exact absurd rfl (hm sig)

theorem Leads.dies (h : Leads K spec (Settled K spec Q) mode p) (hm : ∀ sig, mode ≠ .dead sig)
    (hk : K.Kills p sig) : spec.dies sig p := by
  cases mode with
  | running | masking => exact Settled.dies h hk
  | suspended saved woken =>
    cases woken with
    | false =>
      obtain ⟨W, V, hW, hwaits, hwoken⟩ := h
      exact hwaits.dies hW hk
    | true =>
      obtain ⟨V, hV, hwoken⟩ := h
      exact hwoken.dies hV hk
  | killing sig =>
    obtain ⟨W, hW, hsends⟩ := h
    exact hsends.dies hW hk
  | dead sig => exact absurd rfl (hm sig)

/-- The first handler ends the wait, and later ones leave it at that. -/
theorem Leads.wake {saved : SigSet S} {woken : Bool} (h : Leads K spec B (.suspended saved woken) p)
    (hc : Catches K p sig p') : spec.hears sig p ∧ Leads K spec B (.suspended saved true) p' := by
  cases woken with
  | false =>
    obtain ⟨W, V, hW, hwaits, hwoken⟩ := h
    obtain ⟨hhears, hV⟩ := hwaits.hears hW hc
    exact ⟨hhears, V, hV, hwoken⟩
  | true =>
    obtain ⟨V, hV, hwoken⟩ := h
    obtain ⟨hhears, hV'⟩ := hwoken.hears hV hc
    exact ⟨hhears, V, hV', hwoken⟩

theorem Holds.step (h : Holds K spec s) (hstep : Step K s e s') : Holds K spec s' := by
  unfold Holds at h
  cases hstep with
  | @call c k r p mode hm hp he =>
    rw [hm, hp] at h
    exact Settled.here h r p mode he
  | quiet hm hq => exact Leads.quiet h hm hq
  | handle hm hc =>
    rw [hm] at h
    change Leads K spec _ s.mode _
    rw [hm]
    exact (Settled.hears h hc).2
  | wake hm hc =>
    rw [hm] at h
    exact (Leads.wake h hc).2
  | answer hm hc =>
    rw [hm] at h
    obtain ⟨W, hW, hsends⟩ := h
    exact (hsends.hears hW hc).2
  | die hm hd => exact Leads.dies h hm hd
  | unblock hm hc =>
    rw [hm] at h
    exact (Settled.hears h hc).2
  | masked hm hn =>
    rw [hm] at h
    exact h
  | resume hm =>
    rw [hm] at h
    obtain ⟨V, hV, hwoken⟩ := h
    exact hwoken.resume hV
  | killed hm hn =>
    rw [hm] at h
    obtain ⟨W, hW, hsends⟩ := h
    exact hsends.done hW hn

/-- What is shown of the program holds in every run of it. -/
theorem Holds.runs (h : Holds K spec s₀) (hrun : Runs K s₀ s) : Holds K spec s := by
  induction hrun with
  | refl => exact h
  | tail _ hstep ih =>
    obtain ⟨e, hstep⟩ := hstep
    exact ih.step hstep

theorem Holds.returned (h : Holds K spec s) (hm : s.mode = .running) {a : α}
    (hp : s.prog = .ret a) : spec.post a s.proc := by
  unfold Holds at h
  rw [hm, hp] at h
  exact Settled.here h

theorem Holds.died (h : Holds K spec s) (hm : s.mode = .dead sig) : spec.dies sig s.proc := by
  unfold Holds at h
  rwa [hm] at h

/-- A delivered signal has ended the process or run a handler. -/
theorem Holds.delivers (h : Holds K spec s) (hstep : Step K s (.deliver sig) s') :
    spec.dies sig s.proc ∨ spec.hears sig s.proc := by
  unfold Holds at h
  cases hstep with
  | quiet hm hq => cases hq
  | handle hm hc =>
    rw [hm] at h
    exact .inr (Settled.hears h hc).1
  | wake hm hc =>
    rw [hm] at h
    exact .inr (Leads.wake h hc).1
  | answer hm hc =>
    rw [hm] at h
    obtain ⟨W, hW, hsends⟩ := h
    exact .inr (hsends.hears hW hc).1
  | unblock hm hc =>
    rw [hm] at h
    exact .inr (Settled.hears h hc).1
  | die hm hd => exact .inl (Leads.dies h hm hd)

theorem RunsAlone.runs (h : RunsAlone K s s') : Runs K s s' := by
  induction h with
  | refl => exact .refl
  | tail _ hstep ih =>
    obtain ⟨e, -, hstep⟩ := hstep
    exact ih.tail ⟨e, hstep⟩

theorem RunsAlone.one (he : e.Alone) (h : Step K s e s') : RunsAlone K s s' :=
  ReflTransGen.single ⟨e, he, h⟩

/-- While the process waits the time goes by for it as well. -/
theorem RunsAlone.quiet (hm : ∀ sig, s.mode ≠ .dead sig)
    (h : ReflTransGen (fun p p' => ∃ e : Event S, e.Alone ∧ Quiet K p e p') s.proc p) :
    RunsAlone K s { s with proc := p } := by
  induction h with
  | refl => exact .refl
  | tail _ hstep ih =>
    obtain ⟨e, he, hq⟩ := hstep
    exact ih.tail ⟨e, he, .quiet hm hq⟩

/-- A kill returns, or it ends the process. -/
theorem exists_killed (hm : s.mode = .killing sig) : ∃ s', RunsAlone K s s' ∧
    s'.prog = s.prog ∧ (s'.mode = .running ∨ ∃ sig, s'.mode = .dead sig) := by
  have hrun : ∀ sig, s.mode ≠ .dead sig := by
    intro sig he
    rw [hm] at he
    cases he
  have hdone : ∀ {p : Proc S H D}, ¬ p.Deliverable sig →
      RunsAlone K { s with proc := p } ⟨p, .running, s.prog⟩ := fun hn =>
    RunsAlone.one (e := .own) trivial (.killed hm hn)
  by_cases hdel : s.proc.Deliverable sig
  · by_cases hign : K.ignores (s.proc.action sig) sig = true
    · refine ⟨_, ReflTransGen.trans (RunsAlone.one (e := .discard sig) trivial
        (.quiet hrun (.ignored hdel hign))) (hdone ?_), rfl, .inl rfl⟩
      rintro ⟨hpending, -⟩
      have hnot : (s.proc.take sig).pending sig = false := Function.update_self ..
      rw [hnot] at hpending
      cases hpending
    · cases hact : s.proc.action sig with
      | dfl =>
        have hfatal : K.fatal sig = true := by
          rw [hact, Kernel.ignores] at hign
          simpa using hign
        exact ⟨_, RunsAlone.one (e := .deliver sig) trivial (.die hrun ⟨hdel, hact, hfatal⟩), rfl,
          .inr ⟨sig, rfl⟩⟩
      | ign => exact absurd (by rw [hact]; rfl) hign
      | catches h =>
        exact ⟨_, RunsAlone.one (e := .deliver sig) trivial (.answer hm (.handler hdel hact)), rfl,
          .inl rfl⟩
  · exact ⟨_, hdone hdel, rfl, .inl rfl⟩

/-- A sigprocmask returns, or a signal that it has unblocked ends the process. -/
theorem exists_masked (hm : s.mode = .masking) : ∃ s', RunsAlone K s s' ∧
    s'.prog = s.prog ∧ (s'.mode = .running ∨ ∃ sig, s'.mode = .dead sig) := by
  have hrun : ∀ sig, s.mode ≠ .dead sig := by
    intro sig he
    rw [hm] at he
    cases he
  by_cases hall : ∀ sig, s.proc.Deliverable sig → K.ignores (s.proc.action sig) sig = true
  · exact ⟨_, RunsAlone.one (e := .own) trivial (.masked hm hall), rfl, .inl rfl⟩
  · obtain ⟨sig, hsig⟩ := not_forall.mp hall
    obtain ⟨hdel, hnot⟩ := Classical.not_imp.mp hsig
    cases hact : s.proc.action sig with
    | dfl =>
      have hfatal : K.fatal sig = true := by
        rw [hact, Kernel.ignores] at hnot
        simpa using hnot
      exact ⟨_, RunsAlone.one (e := .deliver sig) trivial (.die hrun ⟨hdel, hact, hfatal⟩), rfl,
        .inr ⟨sig, rfl⟩⟩
    | ign => exact absurd (by rw [hact]; rfl) hnot
    | catches h =>
      exact ⟨_, RunsAlone.one (e := .deliver sig) trivial (.unblock hm (.handler hdel hact)), rfl,
        .inl rfl⟩

/-- The process comes to its next call by itself, or to its end. -/
theorem Holds.exists_running (htotal : spec.total) (h : Holds K spec s) :
    ∃ s', RunsAlone K s s' ∧ s'.prog = s.prog ∧
      (s'.mode = .running ∨ ∃ sig, s'.mode = .dead sig) := by
  cases hm : s.mode with
  | running => exact ⟨s, .refl, rfl, .inl hm⟩
  | dead sig => exact ⟨s, .refl, rfl, .inr ⟨sig, hm⟩⟩
  | killing sig => exact exists_killed hm
  | masking => exact exists_masked hm
  | suspended saved woken =>
    have hrun : ∀ sig, s.mode ≠ .dead sig := by
      intro sig he
      rw [hm] at he
      cases he
    cases woken with
    | true =>
      exact ⟨_, RunsAlone.one (e := .own) trivial (.resume hm), rfl, .inl rfl⟩
    | false =>
      unfold Holds at h
      rw [hm] at h
      obtain ⟨W, V, hW, hwaits, -⟩ := h
      obtain ⟨p', p'', sig, hquiet, hcatch⟩ := hwaits.wakes htotal hW
      refine ⟨_, (ReflTransGen.tail (RunsAlone.quiet hrun hquiet)
        ⟨.deliver sig, trivial, .wake hm hcatch⟩).tail ⟨.own, trivial, .resume rfl⟩, rfl, .inl rfl⟩

theorem exists_exec (hdoes : ∀ (c : O.Call) (d : D), ∃ r d', K.does c d r d') (c : Call S H O)
    (p : Proc S H D) : ∃ r p' mode, Exec K c p r p' mode := by
  cases c with
  | sigaction sig act => exact ⟨_, _, _, .sigaction sig act⟩
  | getaction sig => exact ⟨_, _, _, .getaction sig⟩
  | sigprocmask how set => exact ⟨_, _, _, .sigprocmask how set⟩
  | alarm seconds => exact ⟨_, _, _, .alarm seconds⟩
  | sigsuspend mask => exact ⟨_, _, _, .sigsuspend mask⟩
  | pause => exact ⟨_, _, _, .pause⟩
  | kill sig => exact ⟨_, _, _, .kill sig⟩
  | other c =>
    obtain ⟨r, d', hd⟩ := hdoes c p.data
    exact ⟨r, _, _, .other hd⟩

/-- If every wait ends by itself, the process can always come to its end by itself. -/
theorem Holds.finishes (htotal : spec.total)
    (hdoes : ∀ (c : O.Call) (d : D), ∃ r d', K.does c d r d') (h : Holds K spec s) :
    ∃ s', RunsAlone K s s' ∧ s'.Finished := by
  obtain ⟨p, mode, prog⟩ := s
  induction prog generalizing p mode with
  | ret a =>
    obtain ⟨s', hrun, hprog, hmode⟩ := h.exists_running htotal
    rcases hmode with hmode | hdead
    · exact ⟨s', hrun, .inr ⟨hmode, a, hprog⟩⟩
    · exact ⟨s', hrun, .inl hdead⟩
  | abort msg =>
    obtain ⟨s', hrun, hprog, hmode⟩ := h.exists_running htotal
    rcases hmode with hmode | hdead
    · have hend := h.runs hrun.runs
      unfold Holds at hend
      rw [hmode, hprog] at hend
      exact absurd htotal (Settled.here hend)
    · exact ⟨s', hrun, .inl hdead⟩
  | diverge =>
    obtain ⟨s', hrun, hprog, hmode⟩ := h.exists_running htotal
    rcases hmode with hmode | hdead
    · have hend := h.runs hrun.runs
      unfold Holds at hend
      rw [hmode, hprog] at hend
      exact absurd htotal (Settled.here hend)
    · exact ⟨s', hrun, .inl hdead⟩
  | call c k ih =>
    obtain ⟨s₁, hrun, hprog, hmode⟩ := h.exists_running htotal
    rcases hmode with hmode | hdead
    · obtain ⟨r, p', mode', hexec⟩ := exists_exec hdoes c s₁.proc
      have hstep : Step K s₁ .own ⟨p', mode', k r⟩ := .call hmode hprog hexec
      obtain ⟨s', hrun', hfinished⟩ := ih r p' mode' ((h.runs hrun.runs).step hstep)
      exact ⟨s', (hrun.tail ⟨.own, trivial, hstep⟩).trans hrun', hfinished⟩
    · exact ⟨s₁, hrun, .inl hdead⟩

end Apue.Signals
