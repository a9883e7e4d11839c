import Apue.TellTurns

/-!
When the processes can hang. A process that has found its flag to be zero suspends itself;
if the signal is delivered in between, it waits for a signal that has already come. TELL_WAIT
blocks the signals to prevent this, but the functions that wait set the mask back to what it
was before. So only the first wait of a process is safe, unless the signals were blocked
from the beginning.
-/
namespace Apue.Tell

open Programs

/-- The process is in sigsuspend and nothing is pending that could wake it up. -/
def Proc.Stuck (p : Proc) : Prop :=
  p.pc = .suspended ∧ p.pending .usr1 = false ∧ p.pending .usr2 = false

instance (p : Proc) : Decidable p.Stuck := inferInstanceAs (Decidable (_ ∧ _ ∧ _))

/-- A process is stuck, and the other one is stuck too or has finished. -/
def State.Hung (s : State) : Prop :=
  ∃ r, (s.proc r).Stuck ∧ ((s.proc r.other).Stuck ∨ (s.proc r.other).pc = .done)

/-- What makes every wait safe: there is only one, or the signals stay blocked. -/
def Protected (rounds : ℕ) (oldmask : SigSet) : Prop :=
  rounds ≤ 1 ∨ (oldmask .usr1 = true ∧ oldmask .usr2 = true)

namespace Proc

/-- The mask outside of sigsuspend. -/
def outerMask (p : Proc) : SigSet := if p.pc = .suspended then p.saved else p.mask

/-- The process is on its way to a wait. -/
def Waits (rounds : ℕ) (r : Role) (p : Proc) : Prop :=
  match p.pc with
  | .top => p.i < rounds
  | .test => True
  | .suspend => True
  | .suspended => True
  | .seekRead => r = .parent ∨ p.i + 1 < rounds
  | .read => r = .parent ∨ p.i + 1 < rounds
  | .seekWrite => r = .parent ∨ p.i + 1 < rounds
  | .write => r = .parent ∨ p.i + 1 < rounds
  | .tell => r = .parent ∨ p.i + 1 < rounds
  | _ => False

/-- What a process is apart from its pending signals. -/
def inner (p : Proc) : Proc := { p with pending := emptySet }

/-- The signals are blocked on the way to a wait, and the flag is not set between the test
and the suspension. -/
structure Guarded (rounds : ℕ) (r : Role) (p : Proc) : Prop where
  blocked : p.Waits rounds r → p.outerMask = newmask
  unset : p.pc = .suspend ∨ p.pc = .suspended → p.sigflag = false

theorem Guarded.congr {rounds : ℕ} {r : Role} {p p' : Proc} (h : p.Guarded rounds r)
    (heq : p'.inner = p.inner) : p'.Guarded rounds r := by
  have hinner : p.inner.Guarded rounds r := ⟨h.blocked, h.unset⟩
  rw [← heq] at hinner
  exact ⟨hinner.blocked, hinner.unset⟩

end Proc

namespace State

variable {rounds : ℕ} {oldmask : SigSet} {s s' : State} {r : Role}

/-- A step of one process does not touch the other one, but for its pending signals. -/
theorem step_other (hs : s.step rounds oldmask r = some s') :
    (s'.proc r.other).inner = (s.proc r.other).inner := by
  have hne : r.other ≠ r := by cases r <;> decide
  unfold State.step at hs
  cases hpc : (s.proc r).pc <;> simp only [hpc] at hs
  case top =>
    split at hs
    · cases r <;> cases hs <;> simp [State.go, hne]
    · cases hs
      simp [State.go, hne]
  case read =>
    split at hs <;> cases hs <;> simp [State.go, hne]
  case tell =>
    cases r <;> cases hs <;> simp [State.go, State.next, State.kill, hne, Proc.inner]
  case restore =>
    cases r <;> cases hs <;> simp [State.next, hne]
  all_goals cases hs
  all_goals simp [State.go, hne]

theorem oldmask_of_protected {i : ℕ} (hprot : Protected rounds oldmask) (hi : i + 1 < rounds) :
    oldmask = newmask := by
  rcases hprot with hrounds | ⟨h₁, h₂⟩
  · omega
  · funext sig
    cases sig
    · exact h₁
    · exact h₂

/-- The process that makes the step stays guarded. Only sigprocmask changes the mask. -/
theorem step_guarded (hprot : Protected rounds oldmask) (hloop : (s.proc r).InLoop rounds)
    (h : (s.proc r).Guarded rounds r) (hs : s.step rounds oldmask r = some s') :
    (s'.proc r).Guarded rounds r := by
  obtain ⟨hblocked, hunset⟩ := h
  unfold Proc.InLoop at hloop
  unfold Proc.Waits Proc.outerMask at hblocked
  unfold State.step at hs
  cases hpc : (s.proc r).pc <;> simp only [hpc] at hs hloop hblocked
  case top =>
    split at hs
    · rename_i hlt
      cases r <;> cases hs <;> constructor <;> simp_all [State.go, Proc.Waits, Proc.outerMask]
    · cases hs
      constructor <;> simp [State.go, Proc.Waits]
  case read =>
    split at hs <;> cases hs <;> constructor <;>
      simp_all [State.go, Proc.Waits, Proc.outerMask]
  case tell =>
    cases r <;> cases hs <;> constructor <;>
      simp_all [State.go, State.next, State.kill, Proc.Waits, Proc.outerMask, Role.other]
  case test =>
    cases hs
    cases hflag : (s.proc r).sigflag <;> constructor <;>
      simp_all [State.go, Proc.Waits, Proc.outerMask]
  case restore =>
    cases r <;> cases hs <;> constructor <;>
      simp [State.next, Proc.Waits, Proc.outerMask]
    · exact oldmask_of_protected hprot
    · exact oldmask_of_protected hprot
  all_goals cases hs
  all_goals constructor <;> simp_all [State.go, Proc.Waits, Proc.outerMask]

theorem deliver_other {sig : Signal} (hs : s.deliver r sig = some s') :
    s'.proc r.other = s.proc r.other := by
  have hne : r.other ≠ r := by cases r <;> decide
  unfold State.deliver at hs
  simp only at hs
  split at hs <;> cases hs
  simp [hne]

theorem deliver_guarded {sig : Signal} (h : (s.proc r).Guarded rounds r)
    (hs : s.deliver r sig = some s') : (s'.proc r).Guarded rounds r := by
  obtain ⟨hblocked, hunset⟩ := h
  unfold Proc.Waits Proc.outerMask at hblocked
  unfold State.deliver at hs
  simp only at hs
  split at hs
  · rename_i hen
    obtain rfl := Option.some.inj hs
    rw [set_proc_self]
    by_cases hsus : (s.proc r).pc = .suspended
    · rw [if_pos hsus]
      constructor <;> simp_all [Proc.Waits, Proc.outerMask]
    · rw [if_neg hsus]
      constructor
      · simpa [Proc.Waits, Proc.outerMask, hsus] using hblocked
      · -- Before the suspension the signal is blocked, and so it is not delivered.
        rintro (hpc | hpc)
        · change (s.proc r).pc = .suspend at hpc
          have hmask := hblocked (by rw [hpc]; trivial)
          rw [if_neg hsus] at hmask
          rw [hmask] at hen
          cases hen.2.1
        · exact absurd hpc hsus
  · cases hs

/-- The processes are guarded in every state of a protected run. -/
theorem guarded_of_reachable (hprot : Protected rounds oldmask) (h : Reachable rounds oldmask s) :
    ∀ r, (s.proc r).Guarded rounds r := by
  obtain ⟨events, hrun⟩ := h
  have hboth : s.Inv rounds ∧ ∀ r, (s.proc r).Guarded rounds r := by
    refine steps_induct (P := fun s => s.Inv rounds ∧ ∀ r, (s.proc r).Guarded rounds r)
      (fun s₀ e s₁ h₀ hs₁ => ?_) hrun ⟨Inv.initial rounds, fun r => ?_⟩
    · obtain ⟨hinv, hguard⟩ := h₀
      cases e with
      | call r =>
        refine ⟨hinv.step hs₁, fun r' => ?_⟩
        by_cases hr : r' = r
        · subst hr
          exact step_guarded hprot (hinv.loop r') (hguard r') hs₁
        · obtain rfl : r' = r.other := by cases r <;> cases r' <;> simp_all [Role.other]
          exact (hguard r.other).congr (step_other hs₁)
      | deliver r sig =>
        refine ⟨hinv.deliver hs₁, fun r' => ?_⟩
        by_cases hr : r' = r
        · subst hr
          exact deliver_guarded (hguard r') hs₁
        · obtain rfl : r' = r.other := by cases r <;> cases r' <;> simp_all [Role.other]
          rw [deliver_other hs₁]
          exact hguard r.other
    · exact ⟨fun _ => rfl, fun hpc => by cases hpc <;> contradiction⟩
  exact hboth.2

/-- A stuck process whose flag is not set has no token. -/
theorem tokens_of_stuck {p : Proc} (hp : p.Stuck) (hguard : p.Guarded rounds r) : p.tokens r = 0 := by
  obtain ⟨hpc, h₁, h₂⟩ := hp
  have hflag := hguard.unset (Or.inr hpc)
  cases r <;> simp [Proc.tokens, working, hpc, hflag, h₁, h₂]

theorem not_hung_of_protected (hprot : Protected rounds oldmask)
    (h : Reachable rounds oldmask s) : ¬ s.Hung := by
  have hguard := guarded_of_reachable hprot h
  have hinv := Inv.of_reachable h
  have htoken := hinv.token
  have hahead := hinv.ahead
  rintro ⟨r, hstuck, hother⟩
  have hnone := tokens_of_stuck hstuck (hguard r)
  have hloop := hinv.loop r
  simp only [Proc.InLoop, hstuck.1] at hloop
  rcases hother with hother | hdone
  · have hnone' := tokens_of_stuck hother (hguard r.other)
    cases r <;> simp only [Role.other] at hnone' <;> omega
  · -- The process that has finished has made all its increments, so it is ahead of the other one.
    have hfull := hinv.loop r.other
    simp only [Proc.InLoop, hdone] at hfull
    cases r with
    | parent =>
      simp only [Role.other] at hdone hfull
      have hcount : (s.proc .parent).count .parent = (s.proc .parent).i + 1 := by
        simp [Proc.count, Proc.counted, hstuck.1]
      have hcount' : (s.proc .child).count .child = rounds := by
        simp [Proc.count, Proc.counted, hdone, hfull]
      have hlead : s.lead = 1 := by
        simp [State.lead, hnone, hdone]
      omega
    | child =>
      simp only [Role.other] at hdone hfull
      have hcount : (s.proc .parent).count .parent = rounds := by
        simp [Proc.count, Proc.counted, hdone, hfull]
      have hcount' : (s.proc .child).count .child = (s.proc .child).i := by
        simp [Proc.count, Proc.counted, hstuck.1]
      have hlead : s.lead = 0 := by
        have hone : (s.proc .parent).tokens .parent = 1 := by omega
        simp [State.lead, hone, hdone]
      omega

end State

/-- The first round of both processes. -/
def firstRound : List Event :=
  List.replicate 6 (.call .parent) ++ [.call .child, .call .child, .call .child,
    .deliver .child .usr1] ++ List.replicate 8 (.call .child) ++
  [.call .parent, .call .parent, .deliver .parent .usr2] ++ List.replicate 3 (.call .parent)

/-- The second round: the answer of the child is delivered to the parent between its test
and its suspension, and the child goes on to wait or to finish. -/
def parentMisses (last : ℕ) : List Event :=
  firstRound ++ List.replicate 7 (.call .parent) ++ [.call .child, .call .child, .call .child,
    .deliver .child .usr1] ++ List.replicate 8 (.call .child) ++
  [.deliver .parent .usr2, .call .parent] ++ List.replicate last (.call .child)

/-- The second round: the parent's signal is delivered to the child between its test and
its suspension. -/
def childMisses : List Event :=
  firstRound ++ [.call .child, .call .child] ++ List.replicate 6 (.call .parent) ++
  [.deliver .child .usr1, .call .child, .call .parent, .call .parent]

instance (s : State) : Decidable s.Hung :=
  decidable_of_iff
    (((s.proc .parent).Stuck ∧ ((s.proc .child).Stuck ∨ (s.proc .child).pc = .done)) ∨
      ((s.proc .child).Stuck ∧ ((s.proc .parent).Stuck ∨ (s.proc .parent).pc = .done)))
    ⟨fun h => h.elim (fun h => ⟨.parent, h⟩) fun h => ⟨.child, h⟩,
      fun ⟨r, h⟩ => match r with | .parent => Or.inl h | .child => Or.inr h⟩

def maskOf (usr1 usr2 : Bool) : SigSet
  | .usr1 => usr1
  | .usr2 => usr2

theorem parentMisses_hung (k : ℕ) (usr1 : Bool) : ∃ last,
    ((steps (State.move (k + 2) (maskOf usr1 false)) (parentMisses last) State.initial).any
      fun s => decide s.Hung) = true := by
  cases k with
  | zero => exact ⟨1, by cases usr1 <;> rfl⟩
  | succ k => exact ⟨3, by cases usr1 <;> rfl⟩

theorem childMisses_hung (k : ℕ) (usr2 : Bool) :
    ((steps (State.move (k + 2) (maskOf false usr2)) childMisses State.initial).any
      fun s => decide s.Hung) = true := by
  cases usr2 <;> rfl

theorem maskOf_eq (oldmask : SigSet) : maskOf (oldmask .usr1) (oldmask .usr2) = oldmask := by
  funext sig
  cases sig <;> rfl

theorem hung_of_any {rounds : ℕ} {oldmask : SigSet} {events : List Event}
    (h : ((steps (State.move rounds oldmask) events State.initial).any
      fun s => decide s.Hung) = true) : ∃ s, Reachable rounds oldmask s ∧ s.Hung := by
  obtain ⟨s, hs, hhung⟩ := (Option.any_eq_true _ _).mp h
  exact ⟨s, ⟨events, hs⟩, of_decide_eq_true hhung⟩

/-- A run that is not protected can hang in the second round. -/
theorem hung_of_not_protected {rounds : ℕ} {oldmask : SigSet} (h : ¬ Protected rounds oldmask) :
    ∃ s, Reachable rounds oldmask s ∧ s.Hung := by
  obtain ⟨hrounds, hmask⟩ := not_or.mp h
  obtain ⟨k, rfl⟩ := Nat.exists_eq_add_of_le' (show 2 ≤ rounds by omega)
  rw [← maskOf_eq oldmask]
  cases h₂ : oldmask .usr2 with
  | false =>
    obtain ⟨last, hlast⟩ := parentMisses_hung k (oldmask .usr1)
    exact hung_of_any hlast
  | true =>
    cases h₁ : oldmask .usr1 with
    | false => exact hung_of_any (childMisses_hung k true)
    | true => exact absurd ⟨h₁, h₂⟩ hmask

/-- The processes cannot hang exactly if each of them waits at most once or both signals
were blocked before TELL_WAIT. -/
theorem never_hangs_iff (rounds : ℕ) (oldmask : SigSet) :
    (∀ s, Reachable rounds oldmask s → ¬ s.Hung) ↔ Protected rounds oldmask := by
  refine ⟨fun h => ?_, fun hprot s hs => State.not_hung_of_protected hprot hs⟩
  by_contra hprot
  obtain ⟨s, hs, hhung⟩ := hung_of_not_protected hprot
  exact h s hs hhung

/-- The thirteen rounds of Ex10_6_procsync, with no signal blocked before. -/
theorem procsync_hangs : ¬ ∀ (rounds : ℕ) (oldmask : SigSet) (s : State),
    Reachable rounds oldmask s → ¬ s.Hung := by
  intro h
  have hbare : ¬ Protected 13 emptySet := by
    rintro (hrounds | hmask)
    · omega
    · cases hmask.1
  obtain ⟨s, hs, hhung⟩ := hung_of_not_protected hbare
  exact h 13 emptySet s hs hhung

end Apue.Tell
