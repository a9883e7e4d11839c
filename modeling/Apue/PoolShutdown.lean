import Apue.PoolWakeup

/-!
Shutdown of the worker pool. main signals every worker once, with the worker's
mutex, after graceful_stop has been set. A worker that has tested the flag before
and does not have its mutex yet misses the signal; if it then finds no job it
waits forever. In every run in which this does not happen, main does not join a
worker that is blocked.
-/
namespace Apue.Pool

open DoublyLinked Programs

/-- The worker has its mutex. -/
def Worker.holding : Worker → Bool
  | .rdlock => true
  | .search _ => true
  | .rdunlock _ => true
  | .wait => true
  | .retest => true
  | .wrlock _ => true
  | .remove _ => true
  | .wrunlock _ => true
  | .unlock _ => true
  | _ => false

/-- main has the mutex of worker `i`. -/
def Main.holding (pc : Main) (i : ℕ) : Prop := pc = .stopSignal i ∨ pc = .stopUnlock i

/-- main has seen SIGINT and has signalled worker `v`. -/
def Main.told (n : ℕ) (pc : Main) (v : ℕ) : Prop :=
  match pc with
  | .stopLock i => v < i
  | .stopSignal i => v < i
  | .stopUnlock i => v ≤ i
  | .join _ => v < n
  | _ => False

def Main.stopping : Main → Bool
  | .stopLock _ => true
  | .stopSignal _ => true
  | .stopUnlock _ => true
  | .join _ => true
  | _ => false

namespace State

structure Mutexes (s : State) : Prop where
  worker : ∀ v, (s.worker v).holding = true → s.owner v = some (.worker v)
  main : ∀ i, s.main.holding i → s.owner i = some .main

variable {l l' : List ℕ} {s s' : State} {n u v : ℕ} {e : Event}

/-- A step of worker `v`, which may lock or unlock its own mutex. -/
theorem Mutexes.go {pc : Worker} (h : Mutexes s) (hmain : s'.main = s.main)
    (hworker : s'.worker = Function.update s.worker v pc)
    (howner : ∀ u, u ≠ v → s'.owner u = s.owner u)
    (hfree : s.owner v = some .main → s'.owner v = some .main)
    (hpc : pc.holding = true → s'.owner v = some (.worker v)) : Mutexes s' where
  worker := by
    intro u hu
    rw [hworker] at hu
    by_cases he : u = v
    · subst he
      rw [Function.update_self] at hu
      exact hpc hu
    · rw [Function.update_of_ne he] at hu
      exact (howner u he).trans (h.worker u hu)
  main := by
    intro i hi
    rw [hmain] at hi
    by_cases he : i = v
    · subst he
      exact hfree (h.main i hi)
    · exact (howner i he).trans (h.main i hi)

/-- A step of main. -/
theorem Mutexes.main_go (h : Mutexes s)
    (hworker : ∀ u, s'.worker u = s.worker u ∨ s'.worker u = .woken)
    (howner : ∀ u, s.owner u = some (.worker u) → s'.owner u = some (.worker u))
    (hmain : ∀ i, s'.main.holding i → s'.owner i = some .main) : Mutexes s' where
  worker := by
    intro u hu
    rcases hworker u with he | he
    · rw [he] at hu
      exact howner u (h.worker u hu)
    · rw [he] at hu
      cases hu
  main := hmain

theorem not_holding_stopNext (n i j : ℕ) : ¬ (stopNext n i).holding j := by
  rw [stopNext]
  split <;> rintro (h | h) <;> cases h

theorem Mutexes.step (h : Mutexes s) (hs : s.step n e = some s') : Mutexes s' := by
  obtain ⟨henabled, heffect⟩ := step_eq_some hs
  have hkeep : ∀ {v pc}, s.worker v = pc → pc.holding = true → s.owner v = some (.worker v) :=
    fun hpc hh => h.worker _ (hpc ▸ hh)
  have hfree : ∀ {v pc}, s.worker v = pc → pc.holding = true → s.owner v = some .main → False := by
    intro v pc hpc hh hmain
    cases hmain.symm.trans (hkeep hpc hh)
  have hupdate : ∀ {v : ℕ} {t : Option Thread} (u : ℕ), u ≠ v →
      Function.update s.owner v t u = s.owner u := fun u hu => Function.update_of_ne hu _ _
  cases e with
  | submit | wrlock | wrunlock | pause | join =>
    cases heffect
    exact h.main_go (fun _ => Or.inl rfl) (fun _ hu => hu) (fun _ hi => nomatch hi)
  | link front jp =>
    obtain ⟨q, hq, heffect⟩ := Option.bind_eq_some_iff.mp heffect
    cases heffect
    exact h.main_go (fun _ => Or.inl rfl) (fun _ hu => hu) (fun _ hi => nomatch hi)
  | signal jp v =>
    cases heffect
    refine h.main_go (wake_worker s v) (fun u hu => ?_) (fun _ hi => nomatch hi)
    rw [← hu]
    exact congrFun (wake_frame s v).2.2.2.1 u
  | sigint =>
    cases heffect
    refine h.main_go (fun _ => Or.inl rfl) (fun _ hu => hu) (fun i hi => ?_)
    simp only at hi
    split at hi
    · exact absurd hi (not_holding_stopNext n 0 i)
    · exact h.main i hi
  | stopLock i =>
    cases heffect
    refine h.main_go (fun _ => Or.inl rfl) (fun u hu => ?_) (fun j hj => ?_)
    · by_cases he : u = i
      · subst he
        cases hu.symm.trans henabled.2
      · exact (hupdate u he).trans hu
    · rcases hj with hj | hj <;> cases hj
      exact Function.update_self ..
  | stopSignal i =>
    cases heffect
    have howner := (wake_frame s i).2.2.2.1
    refine h.main_go (wake_worker s i) (fun u hu => (congrFun howner u).trans hu) (fun j hj => ?_)
    rcases hj with hj | hj <;> cases hj
    exact (congrFun howner i).trans (h.main i (Or.inl henabled))
  | stopUnlock i =>
    cases heffect
    refine h.main_go (fun _ => Or.inl rfl) (fun u hu => ?_)
      (fun j hj => absurd hj (not_holding_stopNext n _ j))
    by_cases he : u = i
    · subst he
      cases hu.symm.trans (h.main u (Or.inr henabled))
    · exact (hupdate u he).trans hu
  | test v =>
    cases heffect
    refine h.go rfl rfl (fun _ _ => rfl) id (fun hh => ?_)
    split at hh <;> cases hh
  | lock v =>
    cases heffect
    exact h.go rfl rfl hupdate (fun hm => nomatch hm.symm.trans henabled.2.2)
      (fun _ => Function.update_self ..)
  | relock v =>
    cases heffect
    exact h.go rfl rfl hupdate (fun hm => nomatch hm.symm.trans henabled.2.2)
      (fun _ => Function.update_self ..)
  | rdlock v =>
    cases heffect
    exact h.go rfl rfl (fun _ _ => rfl) id (fun _ => hkeep henabled.2.1 rfl)
  | search v pJob =>
    have hv := hkeep henabled.2 rfl
    cases pJob with
    | none =>
      cases heffect
      exact h.go rfl rfl (fun _ _ => rfl) id (fun _ => hv)
    | some jp =>
      obtain ⟨node, hnode, heffect⟩ := Option.bind_eq_some_iff.mp heffect
      cases heffect
      exact h.go rfl rfl (fun _ _ => rfl) id (fun _ => hv)
  | rdunlock v pJob =>
    cases heffect
    exact h.go rfl rfl (fun _ _ => rfl) id (fun _ => hkeep henabled.2 rfl)
  | wait v =>
    cases heffect
    exact h.go rfl rfl hupdate (fun hm => (hfree henabled.2 rfl hm).elim) nofun
  | spurious v =>
    cases heffect
    exact h.go rfl rfl (fun _ _ => rfl) id nofun
  | retest v =>
    cases heffect
    exact h.go rfl rfl (fun _ _ => rfl) id (fun _ => hkeep henabled.2 rfl)
  | jobWrlock v jp =>
    cases heffect
    exact h.go rfl rfl (fun _ _ => rfl) id (fun _ => hkeep henabled.2.1 rfl)
  | remove v jp =>
    obtain ⟨q, hq, heffect⟩ := Option.bind_eq_some_iff.mp heffect
    cases heffect
    exact h.go rfl rfl (fun _ _ => rfl) id (fun _ => hkeep henabled.2 rfl)
  | jobWrunlock v jp =>
    cases heffect
    exact h.go rfl rfl (fun _ _ => rfl) id (fun _ => hkeep henabled.2 rfl)
  | unlock v pJob =>
    cases heffect
    refine h.go rfl rfl hupdate (fun hm => (hfree henabled.2 rfl hm).elim) (fun hh => ?_)
    cases pJob <;> cases hh
  | run v jp =>
    cases heffect
    exact h.go rfl rfl (fun _ _ => rfl) id nofun

/-- SIGINT has been seen before main comes to the shutdown. -/
theorem stop_step (h : s.main.stopping = true → s.gracefulStop = true)
    (hs : s.step n e = some s') : s'.main.stopping = true → s'.gracefulStop = true := by
  obtain ⟨henabled, heffect⟩ := step_eq_some hs
  cases e with
  | submit | wrlock | wrunlock | pause =>
    cases heffect
    exact nofun
  | link front jp =>
    obtain ⟨q, hq, heffect⟩ := Option.bind_eq_some_iff.mp heffect
    cases heffect
    exact nofun
  | signal =>
    cases heffect
    exact nofun
  | sigint =>
    cases heffect
    exact fun _ => rfl
  | stopSignal i =>
    cases heffect
    exact fun _ => (wake_frame s i).2.2.2.2.trans (h (by rw [henabled]; rfl))
  | stopUnlock i =>
    cases heffect
    exact fun _ => h (by rw [henabled]; rfl)
  | stopLock i | join i =>
    cases heffect
    exact fun _ => h (by rw [henabled.1]; rfl)
  | search v pJob =>
    cases pJob with
    | none =>
      cases heffect
      exact h
    | some jp =>
      obtain ⟨node, hnode, heffect⟩ := Option.bind_eq_some_iff.mp heffect
      cases heffect
      exact h
  | remove v jp =>
    obtain ⟨q, hq, heffect⟩ := Option.bind_eq_some_iff.mp heffect
    cases heffect
    exact h
  | test | lock | rdlock | rdunlock | wait | spurious | relock | retest | jobWrlock | jobWrunlock |
      unlock | run =>
    cases heffect
    exact h

theorem told_stopNext {i : ℕ} (h : (stopNext n i).told n v) : v < i := by
  rw [stopNext] at h
  split at h
  · exact h
  · exact Nat.lt_of_lt_of_le h (Nat.not_lt.mp (by assumption))

/-- A worker is told to stop by the signal. -/
theorem told_step (hs : s.step n e = some s') (h : s'.main.told n v) :
    s.main.told n v ∨ e = .stopSignal v := by
  obtain ⟨henabled, heffect⟩ := step_eq_some hs
  cases e with
  | submit | wrlock | wrunlock | pause | signal =>
    cases heffect
    cases h
  | link front jp =>
    obtain ⟨q, hq, heffect⟩ := Option.bind_eq_some_iff.mp heffect
    cases heffect
    cases h
  | sigint =>
    cases heffect
    simp only at h
    split at h
    · exact absurd (told_stopNext h) (Nat.not_lt_zero v)
    · exact Or.inl h
  | stopLock i =>
    cases heffect
    rw [henabled.1]
    exact Or.inl h
  | stopSignal i =>
    cases heffect
    rw [henabled]
    rcases Nat.lt_or_eq_of_le h with hlt | rfl
    · exact Or.inl hlt
    · exact Or.inr rfl
  | stopUnlock i =>
    cases heffect
    rw [henabled]
    exact Or.inl (Nat.le_of_lt_succ (told_stopNext h))
  | join i =>
    cases heffect
    rw [henabled.1]
    exact Or.inl h
  | search v pJob =>
    cases pJob with
    | none =>
      cases heffect
      exact Or.inl h
    | some jp =>
      obtain ⟨node, hnode, heffect⟩ := Option.bind_eq_some_iff.mp heffect
      cases heffect
      exact Or.inl h
  | remove v jp =>
    obtain ⟨q, hq, heffect⟩ := Option.bind_eq_some_iff.mp heffect
    cases heffect
    exact Or.inl h
  | test | lock | rdlock | rdunlock | wait | spurious | relock | retest | jobWrlock | jobWrunlock |
      unlock | run =>
    cases heffect
    exact Or.inl h

/-- A worker that has been told to stop is not blocked and will not be: it tests the
flag before it waits again, unless it finds a job. -/
def Leaving (l : List ℕ) (s : State) (v : ℕ) : Worker → Prop
  | .lock => ∃ jp ∈ l, s.q.workerOf jp = some v
  | .rdlock => ∃ jp ∈ l, s.q.workerOf jp = some v
  | .search _ => ∃ jp ∈ l, s.q.workerOf jp = some v
  | .rdunlock none => False
  | .wait => False
  | .blocked => False
  | _ => True

/-- Worker `i` is signalled for the shutdown after it has tested graceful_stop and
before it has its mutex, and there is no job for it. -/
def Late (s : State) : Event → Prop
  | .stopSignal i => s.worker i = .lock ∧ ¬ s.q.HoldsFor i
  | _ => False

theorem Leaving.step (h : s.Leaving l v (s.worker v)) (hok : Ok l s) (hstop : s.gracefulStop = true)
    (hs : s.step n e = some s') (hchange : Change l l' s s') : s'.Leaving l' v (s'.worker v) := by
  -- nobody else takes the jobs of `v`
  have hjobs : (∃ jp ∈ l, s.q.workerOf jp = some v) → (∀ jp, s'.worker v ≠ .wrunlock jp) →
      ∃ jp ∈ l', s'.q.workerOf jp = some v := by
    rintro ⟨jp, hjp, hv⟩ hpc
    refine ⟨jp, ?_, (hchange.same jp hjp).trans hv⟩
    rcases hchange.removed jp hjp with hmem | ⟨u, hu, hpc'⟩
    · exact hmem
    · obtain rfl := Option.some.inj (hv.symm.trans hu)
      exact absurd hpc' (hpc jp)
  have hworker := hok.worker v
  rcases step_worker hs v with he | hmove
  · rw [he] at hjobs ⊢
    generalize s.worker v = pc at h hjobs ⊢
    cases pc with
    | lock | rdlock | search => exact hjobs h nofun
    | rdunlock pJob =>
      cases pJob with
      | none => exact h
      | some jp => trivial
    | wait | blocked => exact h
    | test | woken | retest | wrlock | remove | wrunlock | unlock | run | exited => trivial
  · generalize s.worker v = pc, s'.worker v = pc' at h hjobs hmove hworker ⊢
    cases hmove with
    | test =>
      rw [if_pos hstop]
      trivial
    | lock => exact hjobs h nofun
    | rdlock => exact hjobs h nofun
    | notFound =>
      obtain ⟨-, pre, post, rfl, hpost, hpre⟩ := hworker
      obtain ⟨jp, hjp, hv⟩ := h
      cases post with
      | nil =>
        rw [List.append_nil] at hjp
        exact absurd hv (hpre jp hjp)
      | cons a post => cases hpost
    | search hnode =>
      split
      · trivial
      · rename_i hne
        rw [if_neg hne] at hjobs
        exact hjobs h nofun
    | rdunlock => exact h.elim
    | wait => exact h.elim
    | wake => trivial
    | retest =>
      rw [if_pos hstop]
      trivial
    | found | relock | wrlock | remove | wrunlock | unlock | fetched | run => trivial

theorem wake_self (s : State) (v : ℕ) :
    (s.wake v).worker v = if s.worker v = .blocked then .woken else s.worker v := by
  rw [wake]
  split
  · exact Function.update_self ..
  · rfl

structure Stopping (n : ℕ) (l : List ℕ) (s : State) : Prop where
  ok : Ok l s
  mutexes : Mutexes s
  stop : s.main.stopping = true → s.gracefulStop = true
  leaving : ∀ v, s.main.told n v → s.Leaving l v (s.worker v)

theorem stopping_of_told {pc : Main} (h : pc.told n v) : pc.stopping = true := by
  cases pc with
  | stopLock | stopSignal | stopUnlock | join => rfl
  | ready | wrlock | link | wrunlock | signal | pause => cases h

theorem Stopping.step (h : Stopping n l s) (hs : s.step n e = some s') (hlate : ¬ s.Late e) :
    ∃ l', Stopping n l' s' := by
  obtain ⟨l', hok, hchange⟩ := h.ok.step hs
  refine ⟨l', hok, h.mutexes.step hs, stop_step h.stop hs, fun v hv => ?_⟩
  rcases told_step hs hv with htold | rfl
  · exact (h.leaving v htold).step h.ok (h.stop (stopping_of_told htold)) hs hchange
  · -- main has the mutex of the worker that it signals
    obtain ⟨hmain, heffect⟩ := step_eq_some hs
    have howner : s.owner v = some .main := h.mutexes.main v (Or.inl hmain)
    have hfree : ∀ {pc}, s.worker v = pc → pc.holding = true → False := by
      intro pc hpc hh
      cases howner.symm.trans (h.mutexes.worker v (hpc ▸ hh))
    have hpc' : s'.worker v = if s.worker v = .blocked then .woken else s.worker v := by
      cases heffect
      exact wake_self s v
    have hremoved := hchange.removed
    rw [hpc']
    cases hpc : s.worker v with
    | blocked =>
      rw [if_pos rfl]
      trivial
    | lock =>
      rw [if_neg nofun]
      have hholds : s.q.HoldsFor v := by
        by_contra hnot
        exact hlate ⟨hpc, hnot⟩
      obtain ⟨jp, hjp, hv⟩ := h.ok.has.mem_of_holdsFor hholds
      refine ⟨jp, ?_, (hchange.same jp hjp).trans hv⟩
      rcases hremoved jp hjp with hmem | ⟨u, hu, hw⟩
      · exact hmem
      · obtain rfl := Option.some.inj (hv.symm.trans hu)
        rw [hpc', hpc, if_neg nofun] at hw
        cases hw
    | test | woken | run | exited =>
      rw [if_neg nofun]
      trivial
    | rdlock | search | rdunlock | wait | retest | wrlock | remove | wrunlock | unlock =>
      exact (hfree hpc rfl).elim

theorem stopping_reach
    (hr : Relation.ReflTransGen (fun s s' => ∃ e, ¬ s.Late e ∧ s.step n e = some s') start s) :
    ∃ l, Stopping n l s := by
  induction hr with
  | refl => exact ⟨[], ok_start, ⟨nofun, fun _ hi => nomatch hi⟩, nofun, nofun⟩
  | tail _ hs ih =>
    obtain ⟨l, h⟩ := ih
    obtain ⟨e, hlate, hs⟩ := hs
    exact h.step hs hlate

/-- In every run in which no worker is signalled for the shutdown after it has
tested graceful_stop and before it has its mutex, with no job for it in the queue:
main does not join a worker that is blocked. -/
theorem shutdown_reaches_workers
    (hr : Relation.ReflTransGen (fun s s' => ∃ e, ¬ s.Late e ∧ s.step n e = some s') start s)
    (hv : v < n) (hmain : s.main = .join v) : s.worker v ≠ .blocked := by
  intro hblocked
  obtain ⟨l, h⟩ := stopping_reach hr
  have hleaving := h.leaving v (by rw [hmain]; exact hv)
  rw [hblocked] at hleaving
  exact hleaving

/-- A worker that is at its mutex cannot be signalled in time. -/
def tooLate (s : State) : Event → Bool
  | .stopSignal i => s.worker i = .lock
  | _ => false

theorem not_late (h : s.tooLate e = false) : ¬ s.Late e := by
  intro hlate
  cases e with
  | stopSignal i =>
    rw [tooLate, decide_eq_false_iff_not] at h
    exact h hlate.1
  | _ => exact hlate

/-- Worker 0 is blocked when SIGINT comes, worker 1 has just started. -/
theorem shutdown_reaches_workers_blocked : ∃ s,
    Relation.ReflTransGen (fun s s' => ∃ e, ¬ s.Late e ∧ s.step 2 e = some s') start s ∧
    s.main = .join 0 ∧ s.worker 0 ≠ .blocked := by
  have hrun : (steps (fun s e => if tooLate s e then none else step 2 s e)
      [.test 0, .lock 0, .rdlock 0, .search 0 none, .rdunlock 0 none, .wait 0, .pause, .sigint,
        .stopLock 0, .stopSignal 0, .stopUnlock 0, .stopLock 1, .stopSignal 1, .stopUnlock 1]
      start).any (fun s => decide (s.main = .join 0)) = true := by
    decide +kernel
  obtain ⟨s, hs, hmain⟩ := (Option.any_eq_true _ _).mp hrun
  rw [decide_eq_true_eq] at hmain
  have hr : Relation.ReflTransGen (fun s s' => ∃ e, ¬ s.Late e ∧ s.step 2 e = some s') start s := by
    refine Relation.ReflTransGen.mono ?_ _ _ (reach_of_steps hs)
    rintro a b ⟨e, he⟩
    split at he
    · cases he
    · rename_i hlate
      exact ⟨e, not_late (Bool.eq_false_iff.mpr hlate), he⟩
  exact ⟨s, hr, hmain, shutdown_reaches_workers hr (by decide) hmain⟩

/-- Worker 0 has tested the flag, but does not have its mutex, when it is signalled. -/
theorem shutdown_misses_worker :
    ¬ ∀ n events s v, steps (fun s e => step n s e) events start = some s → v < n →
      s.main = .join v → s.worker v ≠ .blocked := by
  intro hall
  have hrun : (steps (fun s e => step 1 s e)
      [.test 0, .pause, .sigint, .stopLock 0, .stopSignal 0, .stopUnlock 0, .lock 0, .rdlock 0,
        .search 0 none, .rdunlock 0 none, .wait 0] start).any
      (fun s => decide (s.main = .join 0 ∧ s.worker 0 = .blocked)) = true := by
    decide +kernel
  obtain ⟨s, hs, hfinal⟩ := (Option.any_eq_true _ _).mp hrun
  rw [decide_eq_true_eq] at hfinal
  exact hall 1 _ s 0 hs (by decide) hfinal.1 hfinal.2

end State

end Apue.Pool
