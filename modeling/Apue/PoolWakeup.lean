import Apue.PoolInvariant

/-!
Wake-ups in the worker pool. job_insert and job_append signal a worker without its
mutex, so the signal may fall between the search that finds nothing and the call
of pthread_cond_wait, and is lost. In every run in which this does not happen, a
worker that is blocked has no job in the queue.
-/
namespace Apue.Pool

open DoublyLinked Programs

/-- The job is in the queue and its worker has not been signalled yet. -/
def Main.Pending (pc : Main) (jp : ℕ) : Prop := pc = .wrunlock jp ∨ pc = .signal jp

/-- main is in a call of job_insert or job_append. -/
def Main.inserting : Main → Bool
  | .wrlock _ _ => true
  | .link _ _ => true
  | .wrunlock _ => true
  | .signal _ => true
  | _ => false

namespace State

/-- What a worker can do next. -/
inductive Moves (s : State) (v : ℕ) : Worker → Worker → Prop
  | test : Moves s v .test (if s.gracefulStop then .exited else .lock)
  | lock : Moves s v .lock .rdlock
  | rdlock : Moves s v .rdlock (.search s.q.qHead)
  | notFound : Moves s v (.search none) (.rdunlock none)
  | search {jp : ℕ} {node : Node ℕ Job} (hnode : s.q.heap jp = some node) :
      Moves s v (.search (some jp))
        (if node.val.jWorker = v then .rdunlock (some jp) else .search node.next)
  | rdunlock : Moves s v (.rdunlock none) .wait
  | found {jp : ℕ} : Moves s v (.rdunlock (some jp)) (.wrlock jp)
  | wait : Moves s v .wait .blocked
  | wake : Moves s v .blocked .woken
  | relock : Moves s v .woken .retest
  | retest : Moves s v .retest (if s.gracefulStop then .unlock none else .rdlock)
  | wrlock {jp : ℕ} : Moves s v (.wrlock jp) (.remove jp)
  | remove {jp : ℕ} : Moves s v (.remove jp) (.wrunlock jp)
  | wrunlock {jp : ℕ} : Moves s v (.wrunlock jp) (.unlock (some jp))
  | unlock : Moves s v (.unlock none) .test
  | fetched {jp : ℕ} : Moves s v (.unlock (some jp)) (.run jp)
  | run {jp : ℕ} : Moves s v (.run jp) .test

variable {l l' : List ℕ} {s s' : State} {n u v : ℕ} {e : Event}

theorem go_moves {pc : Worker} (hworker : s'.worker = Function.update s.worker v pc)
    (hmove : s.Moves v (s.worker v) pc) (u : ℕ) :
    s'.worker u = s.worker u ∨ s.Moves u (s.worker u) (s'.worker u) := by
  rw [hworker]
  by_cases hu : u = v
  · subst hu
    rw [Function.update_self]
    exact Or.inr hmove
  · exact Or.inl (Function.update_of_ne hu _ _)

theorem wake_moves (s : State) (v u : ℕ) :
    (s.wake v).worker u = s.worker u ∨ s.Moves u (s.worker u) ((s.wake v).worker u) := by
  rw [wake]
  split
  · rename_i hpc
    exact go_moves rfl (hpc ▸ .wake) u
  · exact Or.inl rfl

theorem step_worker (hs : s.step n e = some s') (u : ℕ) :
    s'.worker u = s.worker u ∨ s.Moves u (s.worker u) (s'.worker u) := by
  obtain ⟨henabled, heffect⟩ := step_eq_some hs
  cases e with
  | submit | wrlock | wrunlock | pause | sigint | stopLock | stopUnlock | join =>
    cases heffect
    exact Or.inl rfl
  | link front jp =>
    obtain ⟨q, hq, heffect⟩ := Option.bind_eq_some_iff.mp heffect
    cases heffect
    exact Or.inl rfl
  | signal jp v =>
    cases heffect
    exact wake_moves s v u
  | stopSignal i =>
    cases heffect
    exact wake_moves s i u
  | test v =>
    cases heffect
    exact go_moves rfl (henabled.2 ▸ .test) u
  | lock v =>
    cases heffect
    exact go_moves rfl (henabled.2.1 ▸ .lock) u
  | rdlock v =>
    cases heffect
    exact go_moves rfl (henabled.2.1 ▸ .rdlock) u
  | search v pJob =>
    cases pJob with
    | none =>
      cases heffect
      exact go_moves rfl (henabled.2 ▸ .notFound) u
    | some jp =>
      obtain ⟨node, hnode, heffect⟩ := Option.bind_eq_some_iff.mp heffect
      cases heffect
      exact go_moves rfl (henabled.2 ▸ .search hnode) u
  | rdunlock v pJob =>
    cases heffect
    cases pJob with
    | none => exact go_moves rfl (henabled.2 ▸ .rdunlock) u
    | some jp => exact go_moves rfl (henabled.2 ▸ .found) u
  | wait v =>
    cases heffect
    exact go_moves rfl (henabled.2 ▸ .wait) u
  | spurious v =>
    cases heffect
    exact go_moves rfl (henabled.2 ▸ .wake) u
  | relock v =>
    cases heffect
    exact go_moves rfl (henabled.2.1 ▸ .relock) u
  | retest v =>
    cases heffect
    exact go_moves rfl (henabled.2 ▸ .retest) u
  | jobWrlock v jp =>
    cases heffect
    exact go_moves rfl (henabled.2.1 ▸ .wrlock) u
  | remove v jp =>
    obtain ⟨q, hq, heffect⟩ := Option.bind_eq_some_iff.mp heffect
    cases heffect
    exact go_moves rfl (henabled.2 ▸ .remove) u
  | jobWrunlock v jp =>
    cases heffect
    exact go_moves rfl (henabled.2 ▸ .wrunlock) u
  | unlock v pJob =>
    cases heffect
    cases pJob with
    | none => exact go_moves rfl (henabled.2 ▸ .unlock) u
    | some jp => exact go_moves rfl (henabled.2 ▸ .fetched) u
  | run v jp =>
    cases heffect
    exact go_moves rfl (henabled.2 ▸ .run) u

/-- A worker that is about to wait has found nothing, or it was waiting before. -/
theorem waits_back (hs : s.step n e = some s') (hu : s'.worker u = .wait ∨ s'.worker u = .blocked) :
    s.worker u = .wait ∨ s.worker u = .blocked ∨ s.worker u = .rdunlock none := by
  rcases step_worker hs u with he | hmove
  · rw [he] at hu
    exact hu.imp_right Or.inl
  · generalize hpc : s.worker u = pc, hpc' : s'.worker u = pc' at hmove hu
    cases hmove with
    | rdunlock => exact Or.inr (Or.inr rfl)
    | wait => exact Or.inl rfl
    | test | search | retest => split at hu <;> rcases hu with hu | hu <;> cases hu
    | lock | rdlock | notFound | found | wake | relock | wrlock | remove | wrunlock | unlock |
        fetched | run =>
      rcases hu with hu | hu <;> cases hu

/-- Only the signal itself ends the time in which it is pending. -/
theorem pending_step {jp : ℕ} (hs : s.step n e = some s') (h : s.main.Pending jp) :
    s'.main.Pending jp ∨ ∃ v, e = .signal jp v := by
  obtain ⟨henabled, heffect⟩ := step_eq_some hs
  cases e with
  | test | lock | rdlock | rdunlock | wait | spurious | relock | retest | jobWrlock | jobWrunlock |
      unlock | run =>
    cases heffect
    exact Or.inl h
  | search v pJob =>
    cases pJob with
    | none =>
      cases heffect
      exact Or.inl h
    | some a =>
      obtain ⟨node, hnode, heffect⟩ := Option.bind_eq_some_iff.mp heffect
      cases heffect
      exact Or.inl h
  | remove v a =>
    obtain ⟨q, hq, heffect⟩ := Option.bind_eq_some_iff.mp heffect
    cases heffect
    exact Or.inl h
  | sigint =>
    cases heffect
    refine Or.inl ?_
    rcases h with h | h
    · simp only [h, reduceCtorEq, if_false]
      exact Or.inl rfl
    · simp only [h, reduceCtorEq, if_false]
      exact Or.inr rfl
  | wrunlock a =>
    cases heffect
    rcases h with h | h
    · cases h.symm.trans henabled
      exact Or.inl (Or.inr rfl)
    · cases h.symm.trans henabled
  | signal a v =>
    rcases h with h | h
    · cases h.symm.trans henabled.1
    · cases h.symm.trans henabled.1
      exact Or.inr ⟨v, rfl⟩
  | submit | wrlock | stopLock | join =>
    rcases h with h | h <;> cases h.symm.trans henabled.1
  | link | pause | stopSignal | stopUnlock =>
    rcases h with h | h <;> cases h.symm.trans henabled

/-- A worker that has found nothing is signalled before it waits. -/
def missed (s : State) : Event → Bool
  | .signal jp v => s.worker v = .wait ∧ s.q.workerOf jp = some v
  | _ => false

/-- The signal for every job of a worker that waits, or is about to, is pending. -/
def Signalled (l : List ℕ) (s : State) : Prop :=
  ∀ v, s.worker v = .wait ∨ s.worker v = .blocked → ∀ jp ∈ l, s.q.workerOf jp = some v →
    s.main.Pending jp

theorem Signalled.step (h : Signalled l s) (hok : Ok l s) (hs : s.step n e = some s')
    (hchange : Change l l' s s') (hmissed : s.missed e = false) : Signalled l' s' := by
  intro u hu jp hjp hjpu
  rcases hchange.added jp hjp with hmem | hnew
  · rw [hchange.same jp hmem] at hjpu
    -- the job is in the queue, so that main finds its worker
    have hself : ∀ v, s.q.workerOf jp = some v ∨ s.q.workerOf jp = none → v = u := by
      rintro v (hv | hv)
      · exact Option.some.inj (hv.symm.trans hjpu)
      · cases hjpu.symm.trans hv
    rcases waits_back hs hu with hwait | hblocked | hnone
    · rcases pending_step hs (h u (Or.inl hwait) jp hmem hjpu) with hpending | ⟨v, rfl⟩
      · exact hpending
      · obtain ⟨⟨-, hv⟩, -⟩ := step_eq_some hs
        obtain rfl := hself v hv
        rw [missed, decide_eq_false_iff_not] at hmissed
        exact absurd ⟨hwait, hjpu⟩ hmissed
    · rcases pending_step hs (h u (Or.inr hblocked) jp hmem hjpu) with hpending | ⟨v, rfl⟩
      · exact hpending
      · obtain ⟨⟨-, hv⟩, heffect⟩ := step_eq_some hs
        obtain rfl := hself v hv
        cases heffect
        simp only [wake, hblocked, if_true, go, Function.update_self] at hu
        rcases hu with hu | hu <;> cases hu
    · have hnot : s.WorkerOk l u (.rdunlock none) := hnone ▸ hok.worker u
      exact absurd hjpu (hnot.2 jp hmem)
  · exact Or.inl hnew

theorem signalled_steps {events : List Event} (hok : Ok l s) (h : Signalled l s)
    (hs : steps (fun s e => if s.missed e then none else s.step n e) events s = some s') :
    ∃ l', Ok l' s' ∧ Signalled l' s' := by
  induction events generalizing s l with
  | nil =>
    obtain rfl := Option.some.inj hs
    exact ⟨l, hok, h⟩
  | cons e events ih =>
    obtain ⟨s₁, hs₁, hs⟩ := Option.bind_eq_some_iff.mp hs
    simp only at hs₁
    split at hs₁
    · cases hs₁
    · rename_i hmissed
      obtain ⟨l₁, hok₁, hchange⟩ := hok.step hs₁
      exact ih hok₁ (h.step hok hs₁ hchange (Bool.eq_false_iff.mpr hmissed)) hs

/-- In every run in which no worker is signalled for a job between its search that
finds nothing and its pthread_cond_wait: when no call of job_insert or job_append
is going on, a worker that is blocked has no job in the queue. -/
theorem no_lost_wakeup {events : List Event}
    (hs : steps (fun s e => if s.missed e then none else s.step n e) events start = some s)
    (hmain : s.main.inserting = false) (hv : s.worker v = .blocked) : ¬ s.q.HoldsFor v := by
  intro hholds
  have hstart : Signalled [] start := fun _ _ _ hjp => absurd hjp List.not_mem_nil
  obtain ⟨l, hok, hsignalled⟩ := signalled_steps ok_start hstart hs
  obtain ⟨jp, hjp, hjpv⟩ := hok.has.mem_of_holdsFor hholds
  rcases hsignalled v (Or.inr hv) jp hjp hjpv with he | he
  · rw [he] at hmain
    cases hmain
  · rw [he] at hmain
    cases hmain

/-- Worker 0 is blocked, is woken up for a job, removes it and is blocked again. -/
theorem no_lost_wakeup_job : ∃ s,
    steps (fun s e => if missed s e then none else step 1 s e)
      [.test 0, .lock 0, .rdlock 0, .search 0 none, .rdunlock 0 none, .wait 0,
        .submit true 3 ⟨7, 0⟩, .wrlock true 3, .link true 3, .wrunlock 3, .signal 3 0,
        .relock 0, .retest 0, .rdlock 0, .search 0 (some 3), .rdunlock 0 (some 3), .jobWrlock 0 3,
        .remove 0 3, .jobWrunlock 0 3, .unlock 0 (some 3), .run 0 3, .test 0, .lock 0, .rdlock 0,
        .search 0 none, .rdunlock 0 none, .wait 0] start = some s ∧
    s.worker 0 = .blocked ∧ s.main = .ready ∧ ¬ s.q.HoldsFor 0 := by
  have hrun : (steps (fun s e => if missed s e then none else step 1 s e)
      [.test 0, .lock 0, .rdlock 0, .search 0 none, .rdunlock 0 none, .wait 0,
        .submit true 3 ⟨7, 0⟩, .wrlock true 3, .link true 3, .wrunlock 3, .signal 3 0,
        .relock 0, .retest 0, .rdlock 0, .search 0 (some 3), .rdunlock 0 (some 3), .jobWrlock 0 3,
        .remove 0 3, .jobWrunlock 0 3, .unlock 0 (some 3), .run 0 3, .test 0, .lock 0, .rdlock 0,
        .search 0 none, .rdunlock 0 none, .wait 0] start).any
      (fun s => decide (s.worker 0 = .blocked) && decide (s.main = .ready)) = true := by
    decide +kernel
  obtain ⟨s, hs, hfinal⟩ := (Option.any_eq_true _ _).mp hrun
  rw [Bool.and_eq_true, decide_eq_true_eq, decide_eq_true_eq] at hfinal
  obtain ⟨hworker, hmain⟩ := hfinal
  exact ⟨s, hs, hworker, hmain, no_lost_wakeup hs (by rw [hmain]; rfl) hworker⟩

/-- The job comes and is signalled while worker 0 is about to wait. -/
theorem lost_wakeup :
    ¬ ∀ n events s v, steps (fun s e => step n s e) events start = some s →
      s.gracefulStop = false → s.main.inserting = false → s.worker v = .blocked →
      ¬ s.q.HoldsFor v := by
  intro hall
  have hrun : (steps (fun s e => step 1 s e)
      [.test 0, .lock 0, .rdlock 0, .search 0 none, .rdunlock 0 none, .submit true 3 ⟨7, 0⟩,
        .wrlock true 3, .link true 3, .wrunlock 3, .signal 3 0, .wait 0] start).any
      (fun s => decide (s.gracefulStop = false ∧ s.main.inserting = false ∧ s.worker 0 = .blocked ∧
        ∃ jp ∈ walk s.q.heap 1 s.q.qHead, s.q.workerOf jp = some 0)) = true := by
    decide +kernel
  obtain ⟨s, hs, hfinal⟩ := (Option.any_eq_true _ _).mp hrun
  rw [decide_eq_true_eq] at hfinal
  obtain ⟨hstop, hmain, hworker, hholds⟩ := hfinal
  exact hall 1 _ s 0 hs hstop hmain hworker ⟨1, hholds⟩

end State

end Apue.Pool
