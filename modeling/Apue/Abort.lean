import Apue.SignalLogic

/-!
The abort of abort.c. It is to end the process by SIGABRT, whatever the process does on that
signal and whether it blocks it or not, and to flush the streams before.
-/
namespace Apue.Abort

open Programs Signals Relation

variable {S H : Type} [DecidableEq S]

/-- The call of fflush(NULL). -/
def flushes : Signature := ⟨Unit, fun _ => Unit⟩

/-- The data of the process is whether its streams have been flushed. -/
def flushing (alrm : S) (fatal : S → Bool) (sends : S → Prop)
    (effect : H → S → (S → Action H) → Bool → (S → Action H) × Bool) :
    Kernel S H Bool flushes where
  alrm := alrm
  fatal := fatal
  sends := sends
  effect := effect
  alarms _ _ timer := timer
  does _ _ _ flushed := flushed = true

def fflush : Prog (calls S H flushes) Unit := other ()

/-- All signals but SIGABRT. -/
def mask (sigabrt : S) : SigSet S := fun s => s ≠ sigabrt

/-- The caller does not ignore SIGABRT any more; the default action is said to flush. -/
def unignore (sigabrt : S) : Action H → Prog (calls S H flushes) Unit
  | .ign => do
    let _ ← sigaction sigabrt (.dfl : Action H)
    fflush
  | .dfl => fflush
  | .catches _ => return ()

/-- It ends with exit(1), which is to be out of reach. -/
def abort (H : Type) (sigabrt : S) : Prog (calls S H flushes) Unit := do
  let action : Action H ← getaction sigabrt
  unignore sigabrt action
  let _ ← sigprocmask .setmask (mask sigabrt)
  kill sigabrt
  fflush
  let _ ← sigaction sigabrt (.dfl : Action H)
  let _ ← sigprocmask .setmask (mask sigabrt)
  kill sigabrt
  return ()

/-- abort does not return. -/
def ending (D : Type) : Spec S H D Unit where
  post _ _ := False
  dies _ _ := True
  hears _ _ := True
  total := True

section Ends

variable {K : Kernel S H Bool flushes} {sigabrt : S} {p p' : Proc S H Bool} {s : S}

theorem deliverable_iff (hp : p.mask = mask sigabrt) :
    p.Deliverable s ↔ p.pending s = true ∧ s = sigabrt := by
  unfold Proc.Deliverable
  rw [hp]
  simp [mask]

/-- Nothing but SIGABRT gets through. -/
theorem stable_mask : Stable K (ending Bool) fun p => p.mask = mask sigabrt where
  quiet h hq := hq.keeps.2.1.trans h
  dies _ _ := trivial
  hears h hc := ⟨trivial, hc.keeps.1.trans h⟩

theorem stable_dfl : Stable K (ending Bool) fun p =>
    p.mask = mask sigabrt ∧ p.action sigabrt = .dfl where
  quiet h hq := ⟨hq.keeps.2.1.trans h.1, (congrFun hq.keeps.1 sigabrt).trans h.2⟩
  dies _ _ := trivial
  hears := by
    rintro p p' s ⟨hmask, hdfl⟩ (⟨hs, hact⟩)
    obtain ⟨-, rfl⟩ := (deliverable_iff hmask).mp hs
    rw [hdfl] at hact
    cases hact

theorem stable_true : Stable K (ending Bool) fun _ => True where
  quiet _ _ := trivial
  dies _ _ := trivial
  hears _ _ := ⟨trivial, trivial⟩

/-- The second kill ends the process. -/
theorem sends_last (hfatal : K.fatal sigabrt = true) (B : Proc S H Bool → Prop) :
    Sends K (ending Bool) sigabrt B fun p =>
      (p.mask = mask sigabrt ∧ p.action sigabrt = .dfl) ∧ p.pending sigabrt = true where
  quiet := by
    rintro p p' e ⟨h, hpending⟩ hq
    refine ⟨stable_dfl.quiet h hq, hq.pending hpending (.inl ?_)⟩
    rw [h.2, Kernel.ignores, hfatal]
    rfl
  dies _ _ := trivial
  hears := by
    rintro p p' s ⟨⟨hmask, hdfl⟩, -⟩ (⟨hs, hact⟩)
    obtain ⟨-, rfl⟩ := (deliverable_iff hmask).mp hs
    rw [hdfl] at hact
    cases hact
  done h hn := absurd ((deliverable_iff h.1.1).mpr ⟨h.2, rfl⟩) hn

theorem safe_unignore {f : Unit → Prog (calls S H flushes) Unit}
    (hf : ∀ p, Safe K (ending Bool) (f ()) p) (act : Action H) (p : Proc S H Bool) :
    Safe K (ending Bool) (unignore sigabrt act >>= f) p := by
  cases act with
  | catches h => exact hf p
  | dfl =>
    refine ⟨fun _ => True, trivial, stable_true, ?_⟩
    intro p _ r p' mode he
    cases he
    exact hf _
  | ign =>
    refine ⟨fun _ => True, trivial, stable_true, ?_⟩
    intro p _ r p' mode he
    cases he
    refine ⟨fun _ => True, trivial, stable_true, ?_⟩
    intro p _ r p' mode he
    cases he
    exact hf _

/-- The first kill returns if a handler does. -/
theorem sends_first {B : Proc S H Bool → Prop} (hB : ∀ p, p.mask = mask sigabrt → B p) :
    Sends K (ending Bool) sigabrt B fun p => p.mask = mask sigabrt where
  quiet := stable_mask.quiet
  dies _ _ := trivial
  hears h hc := ⟨trivial, hB _ (stable_mask.hears h hc).2⟩
  done h _ := hB _ h

theorem abort_safe (hfatal : K.fatal sigabrt = true) (p : Proc S H Bool) :
    Safe K (ending Bool) (abort H sigabrt) p := by
  refine ⟨fun _ => True, trivial, stable_true, ?_⟩
  intro p _ r p' mode he
  cases he
  refine safe_unignore (fun p => ?_) _ _
  refine ⟨fun _ => True, trivial, stable_true, ?_⟩
  intro p _ r p' mode he
  cases he
  refine ⟨fun p => p.mask = mask sigabrt, rfl, stable_mask, ?_⟩
  intro p hp r p' mode he
  cases he
  refine ⟨fun p => p.mask = mask sigabrt, hp, sends_first fun p hp => ?_⟩
  refine ⟨fun p => p.mask = mask sigabrt, hp, stable_mask, ?_⟩
  intro p hp r p' mode he
  cases he
  refine ⟨fun p => p.mask = mask sigabrt, hp, stable_mask, ?_⟩
  intro p hp r p' mode he
  cases he
  refine ⟨fun p => p.mask = mask sigabrt ∧ p.action sigabrt = .dfl,
    ⟨hp, Function.update_self ..⟩, stable_dfl, ?_⟩
  intro p hp r p' mode he
  cases he
  refine ⟨fun p => p.mask = mask sigabrt ∧ p.action sigabrt = .dfl, ⟨rfl, hp.2⟩, stable_dfl, ?_⟩
  intro p hp r p' mode he
  cases he
  exact ⟨_, ⟨hp, Function.update_self ..⟩, sends_last hfatal _⟩

/-- Whatever is done on SIGABRT, whether it is blocked or not, and whatever other signals come:
abort does not return, and the process can always come to its end by itself. -/
theorem abort_ends {alrm : S} {fatal : S → Bool} {sends : S → Prop}
    {effect : H → S → (S → Action H) → Bool → (S → Action H) × Bool}
    (hfatal : fatal sigabrt = true) {s : State S H Bool flushes Unit}
    (hrun : Runs (flushing alrm fatal sends effect) ⟨p, .running, abort H sigabrt⟩ s) :
    ¬ (s.mode = .running ∧ s.prog = .ret ()) ∧
      ∃ s', RunsAlone (flushing alrm fatal sends effect) s s' ∧ ∃ sig, s'.mode = .dead sig := by
  have hsafe : Holds (flushing alrm fatal sends effect) (ending Bool)
      ⟨p, .running, abort H sigabrt⟩ := abort_safe hfatal p
  have hholds := hsafe.runs hrun
  refine ⟨fun h => hholds.returned h.1 h.2, ?_⟩
  obtain ⟨s', halone, hfinished⟩ := hholds.finishes trivial fun _ _ => ⟨(), true, rfl⟩
  refine ⟨s', halone, ?_⟩
  rcases hfinished with hdead | ⟨hm, a, hp⟩
  · exact hdead
  · exact ((hholds.runs halone.runs).returned hm hp).elim

end Ends

/-- If nothing else happens, the process is to die of SIGABRT with its streams flushed. -/
def flushed (H : Type) (sigabrt : S) : Spec S H Bool Unit where
  post _ _ := False
  dies s p := s = sigabrt ∧ p.data = true
  hears s _ := s = sigabrt
  total := True

/-- No signal is about to come. -/
structure Calm (F : (S → Action H) → SigSet S → Bool → Prop) (p : Proc S H Bool) : Prop where
  pending : ∀ s, p.pending s = false
  timer : p.timer = none
  holds : F p.action p.mask p.data

/-- The process has sent itself SIGABRT. -/
structure Sent (sigabrt : S) (F : (S → Action H) → SigSet S → Bool → Prop)
    (p : Proc S H Bool) : Prop where
  sent : p.pending sigabrt = true
  pending : ∀ s, s ≠ sigabrt → p.pending s = false
  timer : p.timer = none
  holds : F p.action p.mask p.data

/-- SIGABRT gets through, and it ends the process only if the streams have been flushed. -/
def Open (sigabrt : S) (act : S → Action H) (m : SigSet S) (data : Bool) : Prop :=
  m = mask sigabrt ∧ (act sigabrt = .dfl ∧ data = true ∨ ∃ h, act sigabrt = .catches h)

section Flushes

variable {K : Kernel S H Bool flushes} {sigabrt : S} {p p' : Proc S H Bool} {s : S} {e : Event S}
  {F : (S → Action H) → SigSet S → Bool → Prop}

theorem tick_calm (htimer : p.timer = none) : (K.tick p).timer = none ∧
    (K.tick p).pending = p.pending := by
  unfold Kernel.tick
  rw [htimer]
  exact ⟨rfl, rfl⟩

omit [DecidableEq S] in
theorem Calm.not_deliverable (h : Calm F p) : ¬ p.Deliverable s := by
  rintro ⟨hs, -⟩
  rw [h.pending] at hs
  cases hs

theorem stable_calm (hsends : ∀ s, ¬ K.sends s) : Stable K (flushed H sigabrt) (Calm F) where
  quiet := by
    rintro p p' e h hq
    obtain ⟨haction, hmask, hdata⟩ := hq.keeps
    have hholds : F p'.action p'.mask p'.data := by
      rw [haction, hmask, hdata]
      exact h.holds
    cases hq with
    | raise hs => exact absurd hs (hsends _)
    | tick =>
      obtain ⟨htimer, hpending⟩ := tick_calm (K := K) h.timer
      exact ⟨fun s => (congrFun hpending s).trans (h.pending s), htimer, hholds⟩
    | ignored hs hign => exact absurd hs h.not_deliverable
  dies h hk := absurd hk.1 h.not_deliverable
  hears h hc := absurd hc.deliverable h.not_deliverable

theorem Calm.raise (h : Calm F p) : Sent sigabrt F (p.raise sigabrt) :=
  ⟨Function.update_self .., fun s hs => (Function.update_of_ne hs _ _).trans (h.pending s), h.timer,
    h.holds⟩

theorem Sent.eq_of_deliverable (h : Sent sigabrt F p) (hs : p.Deliverable s) : s = sigabrt := by
  by_contra hne
  have hfalse := hs.1
  rw [h.pending s hne] at hfalse
  cases hfalse

theorem sends_sent (hsends : ∀ s, ¬ K.sends s) (halarms : ∀ h s t, K.alarms h s t = t)
    (hfatal : K.fatal sigabrt = true)
    (hF : ∀ act m data, F act m data → Open sigabrt act m data) {B : Proc S H Bool → Prop}
    (hB : ∀ p p' : Proc S H Bool, F p.action p.mask p.data → p.action sigabrt ≠ .dfl →
      Calm (fun _ m _ => m = mask sigabrt) p' → B p') :
    Sends K (flushed H sigabrt) sigabrt B (Sent sigabrt F) where
  quiet := by
    rintro p p' e h hq
    obtain ⟨haction, hmask, hdata⟩ := hq.keeps
    have hholds : F p'.action p'.mask p'.data := by
      rw [haction, hmask, hdata]
      exact h.holds
    cases hq with
    | raise hs => exact absurd hs (hsends _)
    | tick =>
      obtain ⟨htimer, hpending⟩ := tick_calm (K := K) h.timer
      exact ⟨(congrFun hpending sigabrt).trans h.sent,
        fun s hs => (congrFun hpending s).trans (h.pending s hs), htimer, hholds⟩
    | ignored hs hign =>
      obtain rfl := h.eq_of_deliverable hs
      obtain ⟨-, ⟨hdfl, -⟩ | ⟨hd, hact⟩⟩ := hF _ _ _ h.holds
      · rw [hdfl, Kernel.ignores, hfatal] at hign
        cases hign
      · rw [hact] at hign
        cases hign
  dies := by
    rintro p s h ⟨hs, hdfl, -⟩
    obtain rfl := h.eq_of_deliverable hs
    obtain ⟨-, ⟨-, hdata⟩ | ⟨hd, hact⟩⟩ := hF _ _ _ h.holds
    · exact ⟨rfl, hdata⟩
    · rw [hdfl] at hact
      cases hact
  hears := by
    rintro p p' s h hc
    obtain rfl := h.eq_of_deliverable hc.deliverable
    have hmask := hc.keeps.1
    have htimer := hc.timer halarms
    obtain ⟨honly, -⟩ := hF _ _ _ h.holds
    refine ⟨rfl, hB p p' h.holds ?_ ⟨fun r => ?_, htimer.trans h.timer, hmask.trans honly⟩⟩
    · cases hc with
      | handler hs hact =>
        rw [hact]
        exact fun he => by cases he
    · by_cases hr : r = s
      · subst hr
        cases hc with
        | handler hs hact => exact Function.update_self ..
      · rw [hc.pending hr]
        exact h.pending r hr
  done := by
    rintro p h hn
    obtain ⟨hmask, -⟩ := hF _ _ _ h.holds
    exact absurd ((deliverable_iff hmask).mpr ⟨h.sent, rfl⟩) hn

/-- What the caller does on SIGABRT when abort unblocks it. -/
def Ready (sigabrt : S) (act : S → Action H) (_ : SigSet S) (data : Bool) : Prop :=
  act sigabrt = .dfl ∧ data = true ∨ ∃ h, act sigabrt = .catches h

theorem calm_unignore {f : Unit → Prog (calls S H flushes) Unit} (hsends : ∀ s, ¬ K.sends s)
    (hdoes : ∀ flushed r flushed', K.does () flushed r flushed' → flushed' = true)
    (hf : ∀ p, Calm (Ready sigabrt) p → Safe K (flushed H sigabrt) (f ()) p) {act : Action H}
    (hp : Calm (fun acts _ _ => acts sigabrt = act) p) :
    Safe K (flushed H sigabrt) (unignore sigabrt act >>= f) p := by
  cases act with
  | catches h => exact hf p ⟨hp.pending, hp.timer, .inr ⟨h, hp.holds⟩⟩
  | dfl =>
    refine ⟨Calm _, hp, stable_calm hsends, ?_⟩
    intro p hp r p' mode he
    cases he with
    | other hd => exact hf _ ⟨hp.pending, hp.timer, .inl ⟨hp.holds, hdoes _ _ _ hd⟩⟩
  | ign =>
    refine ⟨Calm _, hp, stable_calm hsends, ?_⟩
    intro p hp r p' mode he
    cases he
    refine ⟨Calm fun acts _ _ => acts sigabrt = .dfl, ?_, stable_calm hsends, ?_⟩
    · exact ⟨setAction_pending hp.pending, hp.timer, Function.update_self ..⟩
    · intro p hp r p' mode he
      cases he with
      | other hd => exact hf _ ⟨hp.pending, hp.timer, .inl ⟨hp.holds, hdoes _ _ _ hd⟩⟩

theorem abort_calm (hsends : ∀ s, ¬ K.sends s) (halarms : ∀ h s t, K.alarms h s t = t)
    (hfatal : K.fatal sigabrt = true)
    (hdoes : ∀ flushed r flushed', K.does () flushed r flushed' → flushed' = true)
    (hp : Calm (fun _ _ _ => True) p) : Safe K (flushed H sigabrt) (abort H sigabrt) p := by
  refine ⟨_, hp, stable_calm hsends, ?_⟩
  intro p hp r p' mode he
  cases he
  refine calm_unignore hsends hdoes (fun p hp => ?_) ⟨hp.pending, hp.timer, rfl⟩
  refine ⟨_, hp, stable_calm hsends, ?_⟩
  intro p hp r p' mode he
  cases he
  refine ⟨Calm (Open sigabrt), ⟨hp.pending, hp.timer, rfl, hp.holds⟩, stable_calm hsends, ?_⟩
  intro p hp r p' mode he
  cases he
  refine ⟨_, hp.raise, sends_sent hsends halarms hfatal (fun _ _ _ h => h) fun _ p _ _ hp => ?_⟩
  refine ⟨_, hp, stable_calm hsends, ?_⟩
  intro p hp r p' mode he
  cases he with
  | other hd =>
    refine ⟨Calm fun _ m data => m = mask sigabrt ∧ data = true,
      ⟨hp.pending, hp.timer, hp.holds, hdoes _ _ _ hd⟩, stable_calm hsends, ?_⟩
    intro p hp r p' mode he
    cases he
    have hlast : ∀ {act : S → Action H} {m : SigSet S} {data : Bool},
        (m = mask sigabrt ∧ data = true) ∧ act sigabrt = .dfl → Open sigabrt act m data :=
      fun h => ⟨h.1.1, .inl ⟨h.2, h.1.2⟩⟩
    refine ⟨Calm fun act m data => (m = mask sigabrt ∧ data = true) ∧ act sigabrt = .dfl,
      ⟨setAction_pending hp.pending, hp.timer, hp.holds, Function.update_self ..⟩,
      stable_calm hsends, ?_⟩
    intro p hp r p' mode he
    cases he
    refine ⟨Calm fun act m data => (m = mask sigabrt ∧ data = true) ∧ act sigabrt = .dfl,
      ⟨hp.pending, hp.timer, ⟨rfl, hp.holds.1.2⟩, hp.holds.2⟩, stable_calm hsends, ?_⟩
    intro p hp r p' mode he
    cases he
    refine ⟨_, hp.raise, sends_sent hsends halarms hfatal (fun _ _ _ h => hlast h)
      fun _ _ h hno _ => ?_⟩
    exact absurd h.2 hno

/-- If no other signal comes, the process dies of SIGABRT, and its streams have been flushed:
before the signal was sent if nothing catches it, and after its handler otherwise. -/
theorem abort_flushes {alrm : S} {fatal : S → Bool}
    {effect : H → S → (S → Action H) → Bool → (S → Action H) × Bool}
    (hfatal : fatal sigabrt = true) (hpending : ∀ s, p.pending s = false) (htimer : p.timer = none)
    {s : State S H Bool flushes Unit}
    (hrun : Runs (flushing alrm fatal (fun _ => False) effect) ⟨p, .running, abort H sigabrt⟩ s)
    {sig : S} (hdead : s.mode = .dead sig) : sig = sigabrt ∧ s.proc.data = true := by
  have hsafe : Holds (flushing alrm fatal (fun _ => False) effect) (flushed H sigabrt)
      ⟨p, .running, abort H sigabrt⟩ :=
    abort_calm (fun _ h => h) (fun _ _ _ => rfl) hfatal (fun _ _ _ h => h)
      ⟨hpending, htimer, trivial⟩
  exact (hsafe.runs hrun).died hdead

end Flushes

/-- SIGABRT is `false` and SIGALRM `true`; the handler installs itself again. -/
def reinstalled : Unit → Bool → (Bool → Action Unit) → Bool → (Bool → Action Unit) × Bool :=
  fun h s act data => (Function.update act s (.catches h), data)

/-- SIGABRT is caught and blocked. -/
def catching : Proc Bool Unit Bool :=
  ⟨fun _ => .catches (), fun _ => true, fun _ => false, none, 0, false⟩

theorem abort_ends_blocked :
    ¬ (Mode.running (S := Bool) = .running ∧ abort Unit false = .ret ()) ∧
      ∃ s', RunsAlone (flushing true (fun _ => true) (fun _ => True) reinstalled)
        ⟨catching, .running, abort Unit false⟩ s' ∧ ∃ sig, s'.mode = .dead sig :=
  abort_ends rfl .refl

theorem abort_flushes_caught : ∃ s : State Bool Unit Bool flushes Unit,
    Runs (flushing true (fun _ => true) (fun _ => False) reinstalled)
      ⟨catching, .running, abort Unit false⟩ s ∧ s.mode = .dead false ∧ s.proc.data = true := by
  have h₁ : Runs (flushing true (fun _ => true) (fun _ => False) reinstalled)
      ⟨catching, .running, abort Unit false⟩ _ :=
    .single ⟨.own, .call rfl rfl (.getaction false)⟩
  have h₂ := h₁.tail ⟨.own, .call rfl rfl (.sigprocmask .setmask (mask false))⟩
  have h₃ := h₂.tail ⟨.own, .masked rfl fun _ h => by cases h.1⟩
  have h₄ := h₃.tail ⟨.own, .call rfl rfl (.kill false)⟩
  have h₅ := h₄.tail ⟨.deliver false, .answer rfl (.handler (h := ()) ⟨rfl, rfl⟩ rfl)⟩
  have h₆ := h₅.tail ⟨.own, .call rfl rfl (.other (r := ()) (d := true) rfl)⟩
  have h₇ := h₆.tail ⟨.own, .call rfl rfl (.sigaction false .dfl)⟩
  have h₈ := h₇.tail ⟨.own, .call rfl rfl (.sigprocmask .setmask (mask false))⟩
  have h₉ := h₈.tail ⟨.own, .masked rfl fun sig h => by cases sig <;> cases h.1⟩
  have h₁₀ := h₉.tail ⟨.own, .call rfl rfl (.kill false)⟩
  have h₁₁ := h₁₀.tail ⟨.deliver false, .die (fun _ he => by cases he) ⟨⟨rfl, rfl⟩, rfl, rfl⟩⟩
  exact ⟨_, h₁₁, rfl, (abort_flushes rfl (fun _ => rfl) rfl h₁₁ rfl).2⟩

end Apue.Abort
