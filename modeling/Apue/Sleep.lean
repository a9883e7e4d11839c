import Apue.SignalLogic

/-!
The sleep of sleep.c. A run may be disturbed by any signals at any time, and the handlers of
the caller leave the action of SIGALRM and the timer alone.
-/
namespace Apue.Sleep

open Programs Signals Relation

variable {S H D : Type} [DecidableEq S]

/-- sleep makes no other calls. -/
def noCalls : Signature := ⟨Empty, fun _ => Unit⟩

def newmask (K : Kernel S H D noCalls) : SigSet S := fun s => s = K.alrm

def suspmask (K : Kernel S H D noCalls) (oldmask : SigSet S) : SigSet S :=
  Function.update oldmask K.alrm false

def sleep (K : Kernel S H D noCalls) (sigAlrm : H) (seconds : ℕ) : Prog (calls S H noCalls) ℕ := do
  let oldact ← sigaction K.alrm (.catches sigAlrm)
  let oldmask ← sigprocmask .block (newmask K)
  let _ ← alarm seconds
  sigsuspend (suspmask K oldmask)
  let unslept ← alarm 0
  let _ ← sigaction K.alrm oldact
  let _ ← sigprocmask .setmask oldmask
  return unslept

/-- The sleep1 of sleep1.c, whose signal does not fail. -/
def sleep1 (K : Kernel S H D noCalls) (sigAlrm : H) (seconds : ℕ) :
    Prog (calls S H noCalls) ℕ := do
  let _ ← sigaction K.alrm (.catches sigAlrm)
  let _ ← alarm seconds
  pause
  alarm 0

/-- What the timer and the clock may be; seconds that go by do not make it false. -/
structure Ticks (T : Option ℕ → ℕ → Prop) : Prop where
  off : ∀ {c : ℕ}, T none c → T none (c + 1)
  fire : ∀ {t c : ℕ}, t ≤ 1 → T (some t) c → T none (c + 1)
  count : ∀ {t c : ℕ}, 1 < t → T (some t) c → T (some (t - 1)) (c + 1)

/-- The action of SIGALRM, the mask and the time. -/
structure At (K : Kernel S H D noCalls) (act : Action H) (mask : SigSet S)
    (T : Option ℕ → ℕ → Prop) (p : Proc S H D) : Prop where
  act : p.action K.alrm = act
  mask : p.mask = mask
  time : T p.timer p.clock

/-- There is something to wait for: the timer runs or has sent its signal. -/
def Armed (K : Kernel S H D noCalls) (p : Proc S H D) : Prop :=
  p.timer ≠ none ∨ p.pending K.alrm = true

/-- The timer was set to `n` seconds at the time `c₀` or later. -/
def Timed (c₀ n : ℕ) (timer : Option ℕ) (c : ℕ) : Prop :=
  (∀ t, timer = some t → t ≤ n ∧ c₀ + n ≤ c + t) ∧ (timer = none → c₀ + n ≤ c)

def Unslept (c₀ n r : ℕ) (timer : Option ℕ) (c : ℕ) : Prop :=
  timer = none ∧ r ≤ n ∧ c₀ + n ≤ c + r

def spec (K : Kernel S H D noCalls) (p₀ : Proc S H D) (n : ℕ) : Spec S H D ℕ where
  post r := At K (p₀.action K.alrm) p₀.mask (Unslept p₀.clock n r)
  dies _ _ := True
  hears _ _ := True
  total := n ≠ 0

section Assertions

variable {K : Kernel S H D noCalls} {T : Option ℕ → ℕ → Prop} {act : Action H} {mask : SigSet S}
  {c₀ n r : ℕ} {p p' p₀ : Proc S H D} {e : Event S} {s : S}

theorem ticks_started : Ticks fun _ c => c₀ ≤ c where
  off h := by omega
  fire _ h := by omega
  count _ h := by omega

theorem ticks_timed : Ticks (Timed c₀ n) where
  off := by
    rintro c ⟨-, hnone⟩
    have hle := hnone rfl
    exact ⟨fun t ht => absurd ht (Option.some_ne_none t).symm, fun _ => by omega⟩
  fire := by
    rintro t c ht ⟨hsome, -⟩
    obtain ⟨hn, hle⟩ := hsome t rfl
    exact ⟨fun t ht => absurd ht (Option.some_ne_none t).symm, fun _ => by omega⟩
  count := by
    rintro t c ht ⟨hsome, -⟩
    obtain ⟨hn, hle⟩ := hsome t rfl
    refine ⟨fun t' ht' => ?_, fun h => by cases h⟩
    obtain rfl := Option.some.inj ht'
    omega

theorem ticks_unslept : Ticks (Unslept c₀ n r) where
  off := by
    rintro c ⟨-, hr, hle⟩
    exact ⟨rfl, hr, by omega⟩
  fire := by
    rintro t c - ⟨hnone, -⟩
    cases hnone
  count := by
    rintro t c - ⟨hnone, -⟩
    cases hnone

theorem Ticks.tick (hT : Ticks T) (h : T p.timer p.clock) : T (K.tick p).timer (p.clock + 1) := by
  rw [tick_timer]
  cases ht : p.timer with
  | none =>
    rw [ht] at h
    exact hT.off h
  | some t =>
    rw [ht] at h
    by_cases hle : t ≤ 1
    · rw [if_pos (by simpa using hle)]
      exact hT.fire hle h
    · rw [if_neg (by simpa using hle)]
      exact hT.count (by omega) h

theorem At.quiet (hT : Ticks T) (h : At K act mask T p) (hq : Quiet K p e p') :
    At K act mask T p' := by
  obtain ⟨haction, hmask, -⟩ := hq.keeps
  refine ⟨by rw [haction, h.act], by rw [hmask, h.mask], ?_⟩
  rcases hq.time with ⟨htimer, hclock⟩ | ⟨htimer, hclock⟩
  · rw [htimer, hclock]
    exact h.time
  · rw [htimer, hclock]
    exact hT.tick h.time

theorem Armed.quiet (h : Armed K p) (hq : Quiet K p e p')
    (hact : K.ignores (p.action K.alrm) K.alrm = false ∨ p.mask K.alrm = true) : Armed K p' := by
  rcases h with h | h
  · by_cases hp' : p'.timer = none
    · exact .inr (hq.fires h hp')
    · exact .inl hp'
  · exact .inr (hq.pending h hact)

/-- The handlers leave the action of SIGALRM alone and call no alarm. -/
structure Polite (K : Kernel S H D noCalls) : Prop where
  action : ∀ h s act d, (K.effect h s act d).1 K.alrm = act K.alrm
  timer : ∀ h s t, K.alarms h s t = t

theorem At.catches (hK : Polite K) (h : At K act mask T p) (hc : Catches K p s p') :
    At K act mask T p' := by
  obtain ⟨hmask, hclock⟩ := hc.keeps
  refine ⟨?_, by rw [hmask, h.mask], by rw [hc.timer hK.timer, hclock]; exact h.time⟩
  cases hc with
  | handler hs hact => exact (hK.action _ _ _ _).trans h.act

theorem stable_at (hK : Polite K) (hT : Ticks T) : Stable K (spec K p₀ n) (At K act mask T) where
  quiet := At.quiet hT
  dies _ _ := trivial
  hears h hc := ⟨trivial, h.catches hK hc⟩

/-- While SIGALRM is blocked it is not lost. -/
theorem stable_armed (hK : Polite K) (hT : Ticks T) (hmask : mask K.alrm = true) :
    Stable K (spec K p₀ n) fun p => At K act mask T p ∧ (n ≠ 0 → Armed K p) where
  quiet h hq := ⟨h.1.quiet hT hq, fun hn => (h.2 hn).quiet hq (.inr (by rw [h.1.mask, hmask]))⟩
  dies _ _ := trivial
  hears := by
    rintro p p' s ⟨hat, harmed⟩ hc
    refine ⟨trivial, hat.catches hK hc, fun hn => ?_⟩
    have hne : K.alrm ≠ s := by
      rintro rfl
      have hfalse := hc.deliverable.2
      rw [hat.mask, hmask] at hfalse
      cases hfalse
    rcases harmed hn with h | h
    · exact .inl (by rwa [hc.timer hK.timer])
    · exact .inr (by rwa [hc.pending hne])

/-- Once the timer is over SIGALRM is caught. -/
theorem wakes_of_armed {h : H} (hact : p.action K.alrm = .catches h)
    (hmask : p.mask K.alrm = false) (harmed : Armed K p) : Wakes K p := by
  have hpending : ∀ {p : Proc S H D}, p.action K.alrm = .catches h → p.mask K.alrm = false →
      p.pending K.alrm = true → Wakes K p := fun hact hmask hp =>
    ⟨_, _, _, .refl, .handler ⟨hp, hmask⟩ hact⟩
  rcases harmed with htimer | hp
  · obtain ⟨t, ht⟩ := Option.ne_none_iff_exists'.mp htimer
    induction t using Nat.strongRecOn generalizing p with
    | _ t ih =>
      have hq : Quiet K p .tick (K.tick p) := .tick
      obtain ⟨haction, hmask', -, -⟩ := tick_eq (K := K) p
      rw [← haction] at hact
      rw [← hmask'] at hmask
      have hlater : Wakes K (K.tick p) := by
        cases htick : (K.tick p).timer with
        | none => exact hpending hact hmask (hq.fires htimer htick)
        | some t' =>
          refine ih t' ?_ hact hmask (by rw [htick]; exact Option.some_ne_none t') htick
          rw [tick_timer, ht] at htick
          by_cases hle : t ≤ 1
          · rw [if_pos (by simpa using hle)] at htick
            cases htick
          · rw [if_neg (by simpa using hle)] at htick
            have heq : t - 1 = t' := Option.some.inj htick
            omega
      obtain ⟨p', p'', s, hrun, hcatch⟩ := hlater
      exact ⟨p', p'', s, ReflTransGen.head ⟨.tick, trivial, hq⟩ hrun, hcatch⟩
  · exact hpending hact hmask hp

theorem newmask_block (K : Kernel S H D noCalls) (oldmask : SigSet S) :
    How.apply .block (newmask K) oldmask K.alrm = true := by
  simp [How.apply, newmask]

omit [DecidableEq S] in
theorem alarm_timed (hp : c₀ ≤ p.clock) :
    Timed c₀ n (p.setTimer n).timer (p.setTimer n).clock ∧
      (n ≠ 0 → (p.setTimer n).timer ≠ none) := by
  change Timed c₀ n (if n = 0 then none else some n) p.clock ∧
    (n ≠ 0 → (if n = 0 then none else some n) ≠ none)
  by_cases hn : n = 0
  · rw [if_pos hn]
    exact ⟨⟨fun t ht => absurd ht (Option.some_ne_none t).symm, fun _ => by omega⟩,
      fun h => absurd hn h⟩
  · rw [if_neg hn]
    refine ⟨⟨fun t ht => ?_, fun h => absurd h (Option.some_ne_none n)⟩,
      fun _ => Option.some_ne_none n⟩
    obtain rfl := Option.some.inj ht
    omega

omit [DecidableEq S] in
theorem alarm_unslept (hp : Timed c₀ n p.timer p.clock) :
    Unslept c₀ n (p.timer.getD 0) (p.setTimer 0).timer (p.setTimer 0).clock := by
  refine ⟨rfl, ?_⟩
  change p.timer.getD 0 ≤ n ∧ c₀ + n ≤ p.clock + p.timer.getD 0
  cases ht : p.timer with
  | none =>
    have hle := hp.2 ht
    exact ⟨Nat.zero_le n, hle⟩
  | some t => exact hp.1 t ht

/-- The wait of sleep: SIGALRM is not blocked and wakes it up. -/
theorem leads_sigsuspend (hK : Polite K) {sigAlrm : H} {mask suspmask : SigSet S}
    {B : Proc S H D → Prop} (hsusp : suspmask K.alrm = false)
    (hp : At K (.catches sigAlrm) mask (Timed c₀ n) p ∧ (n ≠ 0 → Armed K p))
    (hB : ∀ p, At K (.catches sigAlrm) mask (Timed c₀ n) p → B p) :
    Leads K (spec K p₀ n) B (.suspended p.mask false) { p with mask := suspmask } := by
  obtain ⟨hat, harmed⟩ := hp
  refine ⟨fun p => At K (.catches sigAlrm) suspmask (Timed c₀ n) p ∧ (n ≠ 0 → Armed K p),
    At K (.catches sigAlrm) suspmask (Timed c₀ n), ⟨⟨hat.act, rfl, hat.time⟩, harmed⟩, ?_, ?_⟩
  · constructor
    · constructor
      · intro p p' e h hq
        exact ⟨h.1.quiet ticks_timed hq, fun hn => (h.2 hn).quiet hq (.inl (by rw [h.1.act]; rfl))⟩
      · exact fun _ _ => trivial
    · exact fun h hc => ⟨trivial, h.1.catches hK hc⟩
    · exact fun hn p h => wakes_of_armed h.1.act (by rw [h.1.mask, hsusp]) (h.2 hn)
  · refine ⟨stable_at hK ticks_timed, fun h => hB _ ⟨h.act, ?_, h.time⟩⟩
    exact hat.mask

theorem sleep_safe (hK : Polite K) {sigAlrm : H} (p₀ : Proc S H D) (n : ℕ) :
    Safe K (spec K p₀ n) (sleep K sigAlrm n) p₀ := by
  have hblock := newmask_block K p₀.mask
  have hsusp : suspmask K p₀.mask K.alrm = false := Function.update_self ..
  refine ⟨At K (p₀.action K.alrm) p₀.mask fun _ c => p₀.clock ≤ c,
    ⟨rfl, rfl, Nat.le_refl p₀.clock⟩, stable_at hK ticks_started, ?_⟩
  intro p₁ h₁ r p' mode he
  cases he
  refine ⟨At K (.catches sigAlrm) p₀.mask fun _ c => p₀.clock ≤ c,
    ⟨Function.update_self .., h₁.mask, h₁.time⟩, stable_at hK ticks_started, ?_⟩
  intro p₂ h₂ r p' mode he
  cases he
  refine ⟨At K (.catches sigAlrm) (How.block.apply (newmask K) p₀.mask) fun _ c => p₀.clock ≤ c,
    ⟨h₂.act, congrArg (How.block.apply (newmask K)) h₂.mask, h₂.time⟩,
    stable_at hK ticks_started, ?_⟩
  intro p₃ h₃ r p' mode he
  cases he
  obtain ⟨htimed, harmed⟩ := alarm_timed (n := n) h₃.time
  refine ⟨fun p => At K (.catches sigAlrm) (How.block.apply (newmask K) p₀.mask)
    (Timed p₀.clock n) p ∧ (n ≠ 0 → Armed K p), ⟨⟨h₃.act, h₃.mask, htimed⟩, fun hn =>
    .inl (harmed hn)⟩, stable_armed hK ticks_timed hblock, ?_⟩
  intro p₄ h₄ r p' mode he
  cases he
  rw [h₁.act, h₂.mask]
  refine leads_sigsuspend hK hsusp h₄ fun p hp => ?_
  refine ⟨At K (.catches sigAlrm) (How.block.apply (newmask K) p₀.mask) (Timed p₀.clock n), hp,
    stable_at hK ticks_timed, ?_⟩
  intro p₅ h₅ r p' mode he
  cases he
  generalize hr : p₅.timer.getD 0 = r
  have hunslept := alarm_unslept h₅.time
  rw [hr] at hunslept
  refine ⟨At K (.catches sigAlrm) (How.block.apply (newmask K) p₀.mask) (Unslept p₀.clock n r),
    ⟨h₅.act, h₅.mask, hunslept⟩, stable_at hK ticks_unslept, ?_⟩
  intro p₆ h₆ r' p' mode he
  cases he
  refine ⟨At K (p₀.action K.alrm) (How.block.apply (newmask K) p₀.mask) (Unslept p₀.clock n r),
    ⟨Function.update_self .., h₆.mask, h₆.time⟩, stable_at hK ticks_unslept, ?_⟩
  intro p₇ h₇ r' p' mode he
  cases he
  exact ⟨At K (p₀.action K.alrm) p₀.mask (Unslept p₀.clock n r), ⟨h₇.act, rfl, h₇.time⟩,
    stable_at hK ticks_unslept, fun p hp => hp⟩

end Assertions

section Results

variable {K : Kernel S H D noCalls} {sigAlrm : H} {seconds : ℕ} {p : Proc S H D}
  {s s' : State S H D noCalls ℕ}

/-- Whatever has happened, the program can come to its end without another process. -/
def Ends (K : Kernel S H D noCalls) (prog : Prog (calls S H noCalls) ℕ) : Prop :=
  ∀ p s, Runs K ⟨p, .running, prog⟩ s → ∃ s', RunsAlone K s s' ∧ s'.Finished

/-- The process waits, and by itself it will do so for ever. -/
structure Asleep (s : State S H D noCalls ℕ) : Prop where
  mode : ∃ saved, s.mode = .suspended saved false
  timer : s.proc.timer = none
  pending : ∀ sig, s.proc.pending sig = false

theorem tick_none (hp : p.timer = none) :
    (K.tick p).timer = none ∧ (K.tick p).pending = p.pending := by
  unfold Kernel.tick
  rw [hp]
  exact ⟨rfl, rfl⟩

theorem Asleep.step {e : Event S} (h : Asleep s) (he : e.Alone) (hstep : Step K s e s') :
    Asleep s' := by
  obtain ⟨⟨saved, hmode⟩, htimer, hpending⟩ := h
  have hno : ∀ sig, ¬ s.proc.Deliverable sig := by
    intro sig hs
    have hfalse := hs.1
    rw [hpending] at hfalse
    cases hfalse
  cases hstep with
  | call hm hp hx => rw [hmode] at hm; cases hm
  | quiet hm hq =>
    cases hq with
    | raise hs => exact he.elim
    | tick =>
      obtain ⟨hnone, hsame⟩ := tick_none (K := K) htimer
      exact ⟨⟨saved, hmode⟩, hnone, fun sig => (congrFun hsame sig).trans (hpending sig)⟩
    | ignored hs hign => exact absurd hs (hno _)
  | handle hm hc => exact absurd hc.deliverable (hno _)
  | wake hm hc => exact absurd hc.deliverable (hno _)
  | answer hm hc => exact absurd hc.deliverable (hno _)
  | die hm hd => exact absurd hd.1 (hno _)
  | unblock hm hc => exact absurd hc.deliverable (hno _)
  | masked hm hn => rw [hmode] at hm; cases hm
  | resume hm => rw [hmode] at hm; cases hm
  | killed hm hn => rw [hmode] at hm; cases hm

theorem Asleep.not_finished (h : Asleep s) (hrun : RunsAlone K s s') : ¬ s'.Finished := by
  have hasleep : Asleep s' := by
    induction hrun with
    | refl => exact h
    | tail _ hstep ih =>
      obtain ⟨e, he, hstep⟩ := hstep
      exact ih.step he hstep
  obtain ⟨saved, hmode⟩ := hasleep.mode
  rintro (⟨sig, hm⟩ | ⟨hm, -⟩)
  · rw [hmode] at hm
    cases hm
  · rw [hmode] at hm
    cases hm

/-- Until the timer is over nothing else has to happen. -/
theorem runs_ticks (prog : Prog (calls S H noCalls) ℕ) (hp : ∀ sig, p.pending sig = false) :
    ∃ p', Runs K ⟨p, .running, prog⟩ ⟨p', .running, prog⟩ ∧ p'.action = p.action ∧
      p'.mask = p.mask ∧ p'.timer = none ∧ ∀ sig, sig ≠ K.alrm → p'.pending sig = false := by
  cases ht : p.timer with
  | none => exact ⟨p, .refl, rfl, rfl, ht, fun sig _ => hp sig⟩
  | some t =>
    induction t using Nat.strongRecOn generalizing p with
    | _ t ih =>
      obtain ⟨haction, hmask, -, -⟩ := tick_eq (K := K) p
      have hstep : ∃ e, Step K ⟨p, .running, prog⟩ e ⟨K.tick p, .running, prog⟩ :=
        ⟨.tick, .quiet (fun _ he => by cases he) .tick⟩
      by_cases hle : t ≤ 1
      · have htick : K.tick p = { p with timer := none, clock := p.clock + 1 }.raise K.alrm := by
          unfold Kernel.tick
          rw [ht]
          exact if_pos (by simpa using hle)
        refine ⟨K.tick p, .single hstep, haction, hmask, by rw [htick]; rfl, fun sig hsig => ?_⟩
        rw [htick]
        exact (Function.update_of_ne hsig _ _).trans (hp sig)
      · have htick : K.tick p = { p with timer := some (t - 1), clock := p.clock + 1 } := by
          unfold Kernel.tick
          rw [ht]
          exact if_neg (by simpa using hle)
        obtain ⟨p', hrun, hact, hmask', htimer, hpending⟩ := ih (t - 1) (by omega) (p := K.tick p)
          (by rw [htick]; exact hp) (by rw [htick])
        exact ⟨p', .head hstep hrun, hact.trans haction, hmask'.trans hmask, htimer, hpending⟩

/-- sleep without an alarm waits for another process. -/
theorem exists_asleep (sigAlrm : H) (hp : ∀ sig, p.pending sig = false) :
    ∃ s, Runs K ⟨p, .running, sleep K sigAlrm 0⟩ s ∧ Asleep s := by
  refine ⟨_, ((((ReflTransGen.single ⟨.own, .call rfl rfl (.sigaction ..)⟩).tail
    ⟨.own, .call rfl rfl (.sigprocmask ..)⟩).tail
    ⟨.own, .masked rfl fun sig h => absurd ((hp sig).symm.trans h.1) (by decide)⟩).tail
    ⟨.own, .call rfl rfl (.alarm ..)⟩).tail ⟨.own, .call rfl rfl (.sigsuspend ..)⟩,
    ⟨⟨_, rfl⟩, rfl, fun sig => ?_⟩⟩
  exact hp sig

/-- The alarm of sleep1 may go off before the pause. -/
theorem exists_asleep₁ (hK : Polite K) (sigAlrm : H) (seconds : ℕ)
    (hp : ∀ sig, p.pending sig = false) (hmask : p.mask K.alrm = false) :
    ∃ s, Runs K ⟨p, .running, sleep1 K sigAlrm seconds⟩ s ∧ Asleep s := by
  have hset : Runs K ⟨p, .running, sleep1 K sigAlrm seconds⟩ _ :=
    (ReflTransGen.single ⟨.own, .call rfl rfl (.sigaction ..)⟩).tail
      ⟨.own, .call rfl rfl (.alarm ..)⟩
  obtain ⟨p', hticks, haction, hmask', htimer, hpending⟩ := runs_ticks (K := K)
    (p := (K.setAction p K.alrm (.catches sigAlrm)).setTimer seconds) (do pause; alarm 0) hp
  have hrun := hset.trans hticks
  have hact : p'.action K.alrm = .catches sigAlrm := by
    rw [haction]
    exact Function.update_self ..
  cases halrm : p'.pending K.alrm with
  | false =>
    refine ⟨_, hrun.tail ⟨.own, .call rfl rfl .pause⟩, ⟨⟨_, rfl⟩, htimer, fun sig => ?_⟩⟩
    by_cases hsig : sig = K.alrm
    · rw [hsig]
      exact halrm
    · exact hpending sig hsig
  | true =>
    have hdel : p'.Deliverable K.alrm := ⟨halrm, (congrFun hmask' K.alrm).trans hmask⟩
    refine ⟨_, (hrun.tail ⟨.deliver K.alrm, .handle rfl (.handler hdel hact)⟩).tail
      ⟨.own, .call rfl rfl .pause⟩, ⟨⟨_, rfl⟩, (hK.timer _ _ _).trans htimer, fun sig => ?_⟩⟩
    by_cases hsig : sig = K.alrm
    · rw [hsig]
      exact Function.update_self ..
    · exact (Function.update_of_ne hsig _ _).trans (hpending sig hsig)

/-- sleep needs no other signal to wake it up, unless it is to sleep for no time at all; sleep1
always may. -/
theorem sleep_ends_iff [Inhabited D] (hK : Polite K) (sigAlrm : H) (seconds : ℕ) :
    (Ends K (sleep K sigAlrm seconds) ↔ seconds ≠ 0) ∧ ¬ Ends K (sleep1 K sigAlrm seconds) := by
  let p₀ : Proc S H D := ⟨fun _ => .dfl, fun _ => false, fun _ => false, none, 0, default⟩
  refine ⟨⟨fun hends hzero => ?_, fun hseconds p s hrun => ?_⟩, fun hends => ?_⟩
  · subst hzero
    obtain ⟨s, hrun, hasleep⟩ := exists_asleep (K := K) (p := p₀) sigAlrm fun _ => rfl
    obtain ⟨s', halone, hfinished⟩ := hends p₀ s hrun
    exact hasleep.not_finished halone hfinished
  · have hsafe : Holds K (spec K p seconds) ⟨p, .running, sleep K sigAlrm seconds⟩ :=
      sleep_safe hK p seconds
    exact (hsafe.runs hrun).finishes hseconds fun c _ => c.elim
  · obtain ⟨s, hrun, hasleep⟩ :=
      exists_asleep₁ (p := p₀) hK sigAlrm seconds (fun _ => rfl) rfl
    obtain ⟨s', halone, hfinished⟩ := hends p₀ s hrun
    exact hasleep.not_finished halone hfinished

end Results

/-- SIGALRM is the only signal, and its handler does nothing. -/
def alarmClock : Kernel Unit Unit Unit noCalls where
  alrm := ()
  fatal _ := true
  sends _ := True
  effect _ _ act d := (act, d)
  alarms _ _ timer := timer
  does c := c.elim

theorem sleep_ends_iff_one : Ends alarmClock (sleep alarmClock () 1) :=
  (sleep_ends_iff ⟨fun _ _ _ _ => rfl, fun _ _ _ => rfl⟩ () 1).1.mpr (by decide)

end Apue.Sleep
