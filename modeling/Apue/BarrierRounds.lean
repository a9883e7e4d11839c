import Apue.BarrierInvariant

/-!
How many rounds the barrier works for. In the first one a call that has arrived
can always return, because the thread with the mutex can go on until it unlocks
it. In a second round the counter has wrapped around, and even a single thread
waits forever.
-/
namespace Apue.Barrier

open Programs

namespace State

variable {n t : ℕ} {s s' : State} {e : Event}

theorem CanReturn.of_step (h : s'.CanReturn n t) (hs : s.step n e = some s')
    (hround : s'.round t = s.round t) : s.CanReturn n t := by
  obtain ⟨events, s'', v, hsteps, hmem⟩ := h
  refine ⟨e :: events, s'', v, ?_, hround ▸ hmem⟩
  exact Option.bind_eq_some_iff.mpr ⟨s', hs, hsteps⟩

theorem step_of_enabled (h : s.Enabled n e) : s.step n e = some (s.effect e) := if_pos h

/-- A call that has only to unlock the mutex. -/
theorem canReturn_unlock (ht : s.thread t = .unlockSerial ∨ s.thread t = .unlock) :
    s.CanReturn n t := by
  rcases ht with ht | ht
  · exact ⟨[.unlockSerial t], _, MY_BARRIER_SERIAL_THREAD,
      Option.bind_eq_some_iff.mpr ⟨_, step_of_enabled ht, rfl⟩,
      List.mem_append_right _ List.mem_cons_self⟩
  · exact ⟨[.unlock t], _, 0, Option.bind_eq_some_iff.mpr ⟨_, step_of_enabled ht, rfl⟩,
      List.mem_append_right _ List.mem_cons_self⟩

theorem effect_test (hc : s.count = 0) : (s.effect (.test t)).thread t = .unlock := by
  rw [effect, go_self, hc]
  rfl

/-- Nobody has the mutex, so the call has been woken up. -/
theorem Ok.canReturn_free (h : Ok n s) (hc : s.count = 0) (ht : s.thread t ≠ .idle)
    (hfree : s.owner = none) : s.CanReturn n t := by
  have hnot : (s.thread t).holding = false := by
    rw [← Bool.not_eq_true]
    intro hh
    cases hfree.symm.trans (h.holds t hh)
  have hlate := (h.all_arrived hc (h.range t ht).1).1
  cases hpc : s.thread t with
  | idle => exact absurd hpc ht
  | lock =>
    rw [hpc] at hlate
    cases hlate
  | blocked =>
    rcases h.phase with ⟨hne, -⟩ | ⟨-, t₀, -, -, -, -, hblocked, -⟩
    · exact absurd hc hne
    · cases hfree.symm.trans (h.holds t₀ (by rw [hblocked t hpc]; rfl))
  | woken =>
    have hrelock := step_of_enabled (n := n) (s := s) (e := .relock t) ⟨hpc, hfree⟩
    refine CanReturn.of_step ?_ hrelock rfl
    have htest : (s.effect (.relock t)).Enabled n (.test t) := go_self ..
    refine CanReturn.of_step ?_ (step_of_enabled htest) rfl
    exact canReturn_unlock (Or.inr (effect_test hc))
  | decrement | broadcast | unlockSerial | test | wait | unlock =>
    rw [hpc] at hnot
    cases hnot

/-- The thread that has the mutex is about to unlock it and return. -/
theorem Ok.canReturn_leaving (h : Ok n s) (hc : s.count = 0) (ht : s.thread t ≠ .idle) {u : ℕ}
    (hu : s.thread u = .unlockSerial ∨ s.thread u = .unlock) : s.CanReturn n t := by
  by_cases he : t = u
  · subst he
    exact canReturn_unlock hu
  · have hsame : ∀ pc, (s.go u pc).thread t = s.thread t := fun pc => go_other s pc he
    rcases hu with hu | hu
    · have hs := step_of_enabled (n := n) (s := s) (e := .unlockSerial u) hu
      exact ((h.step hs rfl).canReturn_free hc ((hsame _).symm ▸ ht) rfl).of_step hs rfl
    · have hs := step_of_enabled (n := n) (s := s) (e := .unlock u) hu
      exact ((h.step hs rfl).canReturn_free hc ((hsame _).symm ▸ ht) rfl).of_step hs rfl

/-- Once all calls have arrived, each of them can return. -/
theorem Ok.canReturn (h : Ok n s) (hc : s.count = 0) (ht : s.thread t ≠ .idle) :
    s.CanReturn n t := by
  cases howner : s.owner with
  | none => exact h.canReturn_free hc ht howner
  | some u =>
    have hhold := h.held u howner
    cases hpc : s.thread u with
    | unlockSerial => exact h.canReturn_leaving hc ht (Or.inl hpc)
    | unlock => exact h.canReturn_leaving hc ht (Or.inr hpc)
    | test =>
      have hs := step_of_enabled (n := n) (s := s) (e := .test u) hpc
      have hleave := effect_test (t := u) hc
      refine CanReturn.of_step ?_ hs rfl
      refine (h.step hs rfl).canReturn_leaving hc ?_ (Or.inr hleave)
      by_cases he : t = u
      · rw [he, hleave]
        rintro ⟨⟩
      · rw [effect, go_other s _ he]
        exact ht
    | broadcast =>
      have hs := step_of_enabled (n := n) (s := s) (e := .broadcast u) hpc
      have hleave : (s.effect (.broadcast u)).thread u = .unlockSerial := by
        simp only [effect, Function.update_self]
      refine CanReturn.of_step ?_ hs rfl
      refine (h.step hs rfl).canReturn_leaving hc ?_ (Or.inl hleave)
      by_cases he : t = u
      · rw [he, hleave]
        rintro ⟨⟩
      · simp only [effect, Function.update_of_ne he]
        split
        · rintro ⟨⟩
        · exact ht
    | decrement =>
      have hlate := (h.all_arrived hc (h.range u (by rw [hpc]; rintro ⟨⟩)).1).1
      rw [hpc] at hlate
      cases hlate
    | wait =>
      rcases h.phase with ⟨hne, -⟩ | ⟨-, t₀, -, -, -, hnowait, -⟩
      · exact absurd hc hne
      · exact absurd hpc (hnowait u)
    | idle | lock | blocked | woken =>
      rw [hpc] at hhold
      cases hhold

theorem Ok.arrivedIn (h : Ok n s) : s.arrivedIn 1 = s.arrivals.map Prod.snd := by
  have hfilter : (s.arrivals.filter fun a => a.1 = 1) = s.arrivals :=
    List.filter_eq_self.mpr fun a ha => decide_eq_true (h.arrivals a ha).1
  rw [State.arrivedIn, hfilter]

theorem Ok.correct (h : Ok n s) : Correct n s where
  together := by
    intro r t v hmem
    rcases h.phase with ⟨-, hr, -⟩ | ⟨hc, t₀, -, -, -, -, -, hvals⟩
    · rw [hr] at hmem
      cases hmem
    · obtain ⟨rfl, -⟩ := hvals r t v hmem
      have hcount := h.count
      rw [hc] at hcount
      rw [h.arrivedIn, List.length_map]
      simpa using hcount
  serial := by
    intro r
    rcases h.phase with ⟨hc, hr, -⟩ | ⟨-, t₀, hlt, -, -, -, -, hvals⟩
    · have hpos : 0 < s.count.toNat :=
        Nat.pos_of_ne_zero fun h0 => hc (UInt32.toNat_inj.mp h0)
      refine ⟨0, by have := h.count; omega, fun t v hmem => ?_⟩
      rw [hr] at hmem
      cases hmem
    · exact ⟨t₀, hlt, fun t v hmem => (hvals r t v hmem).2⟩
  live := by
    intro t ht hall
    rw [(h.range t ht).2, h.arrivedIn, List.length_map] at hall
    have hcount := h.count
    have hzero : s.count.toNat = 0 := by omega
    exact h.canReturn (UInt32.toNat_inj.mp hzero) ht

theorem ok_steps {events : List Event} (h : Ok n s)
    (hs : steps (fun s e => if s.again e then none else s.step n e) events s = some s') :
    Ok n s' := by
  induction events generalizing s with
  | nil =>
    obtain rfl := Option.some.inj hs
    exact h
  | cons e events ih =>
    obtain ⟨s₁, hs₁, hs⟩ := Option.bind_eq_some_iff.mp hs
    simp only at hs₁
    split at hs₁
    · cases hs₁
    · rename_i hagain
      exact ih (h.step hs₁ (Bool.eq_false_iff.mpr hagain)) hs

/-- my_barrier_wait is a barrier in every run in which no thread makes a second
call. -/
theorem barrier_correct {count : UInt32} {s₀ s : State} {events : List Event}
    (hinit : myBarrierInit count = .ok s₀)
    (hs : steps (fun s e => if s.again e then none else s.step count.toNat e) events s₀ = some s) :
    Correct count.toNat s := (ok_steps (ok_init hinit) hs).correct

/-- Two threads; the first one is woken up once without a broadcast. -/
theorem barrier_correct_two : ∃ s₀ s, myBarrierInit 2 = .ok s₀ ∧
    steps (fun s e => if s.again e then none else s.step 2 e)
      [.call 0, .call 1, .lock 0, .decrement 0, .test 0, .wait 0, .spurious 0, .relock 0, .test 0,
        .wait 0, .lock 1, .decrement 1, .broadcast 1, .unlockSerial 1, .relock 0, .test 0,
        .unlock 0] s₀ = some s ∧
    s.returns = [(1, 1, MY_BARRIER_SERIAL_THREAD), (1, 0, 0)] ∧ Correct 2 s := by
  have hrun : (steps (fun s e => if again s e then none else step 2 s e)
      [.call 0, .call 1, .lock 0, .decrement 0, .test 0, .wait 0, .spurious 0, .relock 0, .test 0,
        .wait 0, .lock 1, .decrement 1, .broadcast 1, .unlockSerial 1, .relock 0, .test 0,
        .unlock 0] ⟨2, none, fun _ => .idle, fun _ => 0, [], []⟩).any
      (fun s => s.returns == [(1, 1, MY_BARRIER_SERIAL_THREAD), (1, 0, 0)]) = true := by
    decide +kernel
  obtain ⟨s, hs, hreturns⟩ := (Option.any_eq_true _ _).mp hrun
  have hinit : myBarrierInit 2 = .ok ⟨2, none, fun _ => .idle, fun _ => 0, [], []⟩ := rfl
  exact ⟨_, s, hinit, hs, eq_of_beq hreturns, barrier_correct hinit hs⟩

/-- The only thread waits in its second call. -/
def Stuck (s : State) : Prop :=
  s.count ≠ 0 ∧ (∀ t, t ≠ 0 → s.thread t = .idle) ∧
    (s.thread 0 = .test ∨ s.thread 0 = .wait ∨ s.thread 0 = .blocked ∨ s.thread 0 = .woken) ∧
    s.round 0 = 2 ∧ s.returns = [(1, 0, MY_BARRIER_SERIAL_THREAD)]

theorem Stuck.step (h : s.Stuck) (hs : s.step 1 e = some s') : s'.Stuck := by
  obtain ⟨hc, hother, hpc, hround, hreturns⟩ := h
  -- the thread that moves is in a call, so it is the only one there is
  have hzero : ∀ {t pc}, s.thread t = pc → pc ≠ .idle → t = 0 := by
    intro t pc ht hne
    by_contra h0
    exact hne (ht.symm.trans (hother t h0))
  have hgo : ∀ (pc : Pc) (t : ℕ), t ≠ 0 → (s.go 0 pc).thread t = .idle :=
    fun pc t ht => (go_other s pc ht).trans (hother t ht)
  obtain ⟨henabled, rfl⟩ := step_eq_some hs
  cases e with
  | call t =>
    obtain ⟨ht, hidle⟩ := henabled
    obtain rfl := Nat.lt_one_iff.mp ht
    rcases hpc with h | h | h | h <;> cases hidle.symm.trans h
  | lock t =>
    obtain rfl := hzero henabled.1 (by rintro ⟨⟩)
    rcases hpc with h | h | h | h <;> cases henabled.1.symm.trans h
  | decrement t | broadcast t | unlockSerial t | unlock t =>
    obtain rfl := hzero henabled (by rintro ⟨⟩)
    rcases hpc with h | h | h | h <;> cases henabled.symm.trans h
  | test t =>
    obtain rfl := hzero henabled (by rintro ⟨⟩)
    have hpos : s.count > 0 := by
      refine UInt32.lt_iff_toNat_lt.mpr (Nat.pos_of_ne_zero fun h0 => hc ?_)
      exact UInt32.toNat_inj.mp h0
    refine ⟨hc, hgo _, Or.inr (Or.inl ?_), hround, hreturns⟩
    rw [effect, go_self, if_pos hpos]
  | wait t =>
    obtain rfl := hzero henabled (by rintro ⟨⟩)
    exact ⟨hc, hgo _, Or.inr (Or.inr (Or.inl (go_self s 0 .blocked))), hround, hreturns⟩
  | spurious t =>
    obtain rfl := hzero henabled (by rintro ⟨⟩)
    exact ⟨hc, hgo _, Or.inr (Or.inr (Or.inr (go_self ..))), hround, hreturns⟩
  | relock t =>
    obtain rfl := hzero henabled.1 (by rintro ⟨⟩)
    exact ⟨hc, hgo _, Or.inl (go_self s 0 .test), hround, hreturns⟩

theorem Stuck.steps {events : List Event} (h : s.Stuck)
    (hs : Programs.steps (State.step 1) events s = some s') : s'.Stuck := by
  induction events generalizing s with
  | nil =>
    obtain rfl := Option.some.inj hs
    exact h
  | cons e events ih =>
    obtain ⟨s₁, hs₁, hs⟩ := Option.bind_eq_some_iff.mp hs
    exact ih (h.step hs₁) hs

/-- With one thread, its second call has arrived and never returns. -/
theorem barrier_second_round :
    ¬ ∀ count s₀ events s, myBarrierInit count = .ok s₀ →
      steps (step count.toNat) events s₀ = some s → Correct count.toNat s := by
  intro hall
  have hinit : myBarrierInit 1 = .ok ⟨1, none, fun _ => .idle, fun _ => 0, [], []⟩ := rfl
  have hrun : (steps (step 1) [.call 0, .lock 0, .decrement 0, .broadcast 0, .unlockSerial 0, .call 0,
      .lock 0, .decrement 0] ⟨1, none, fun _ => .idle, fun _ => 0, [], []⟩).isSome = true := by
    decide +kernel
  obtain ⟨s, hs⟩ := Option.isSome_iff_exists.mp hrun
  have hstuck : s.Stuck ∧ (s.arrivedIn 2).length = 1 := by
    cases hs
    refine ⟨⟨by decide, fun t ht => ?_, Or.inl rfl, rfl, rfl⟩, rfl⟩
    simp only [go, effect, Function.update_of_ne ht]
    rfl
  obtain ⟨hs', harrived⟩ := hstuck
  have hlive := (hall 1 _ _ s hinit hs).live 0
  have hactive : s.thread 0 ≠ .idle := by
    intro hidle
    rcases hs'.2.2.1 with h | h | h | h <;> cases hidle.symm.trans h
  rw [hs'.2.2.2.1] at hlive
  obtain ⟨events, s'', v, hsteps, hmem⟩ := hlive hactive harrived
  rw [(hs'.steps hsteps).2.2.2.2, hs'.2.2.2.1] at hmem
  cases List.mem_singleton.mp hmem

end State

end Apue.Barrier
