import Apue.PoolModel

/-!
What holds in every state of the worker pool: the queue is well formed, the
read-write lock keeps writers and readers apart, a worker that has found a job
finds it in the queue until it removes it, and a search that has come to its end
has passed no job of its worker.
-/
namespace Apue.Pool

open DoublyLinked

/-- The job that main is about to link. -/
def Main.newJob : Main → Option ℕ
  | .wrlock _ jp => some jp
  | .link _ jp => some jp
  | _ => none

namespace State

/-- What worker `v` relies on; the queue has the nodes `l`. -/
def WorkerOk (l : List ℕ) (s : State) (v : ℕ) : Worker → Prop
  | .search pJob => v ∈ s.readers ∧ ∃ pre post, l = pre ++ post ∧ pJob = firstOr post none ∧
      ∀ jp ∈ pre, s.q.workerOf jp ≠ some v
  | .rdunlock none => v ∈ s.readers ∧ ∀ jp ∈ l, s.q.workerOf jp ≠ some v
  | .rdunlock (some jp) => v ∈ s.readers ∧ jp ∈ l ∧ s.q.workerOf jp = some v
  | .wrlock jp => jp ∈ l ∧ s.q.workerOf jp = some v
  | .remove jp => s.writer = some (.worker v) ∧ jp ∈ l ∧ s.q.workerOf jp = some v
  | .wrunlock jp => s.writer = some (.worker v) ∧ jp ∉ l ∧ s.q.workerOf jp = some v ∧
      s.main.newJob ≠ some jp
  | .unlock (some jp) => jp ∉ l ∧ s.q.workerOf jp = some v ∧ s.main.newJob ≠ some jp
  | .run jp => jp ∉ l ∧ s.q.workerOf jp = some v ∧ s.main.newJob ≠ some jp
  | _ => True

/-- What main relies on. -/
def MainOk (l : List ℕ) (s : State) : Main → Prop
  | .wrlock _ jp => jp ∉ l ∧ s.q.workerOf jp ≠ none
  | .link _ jp => s.writer = some .main ∧ jp ∉ l ∧ s.q.workerOf jp ≠ none
  | .wrunlock _ => s.writer = some .main
  | _ => True

structure Ok (l : List ℕ) (s : State) : Prop where
  has : s.q.Has l
  apart : s.writer ≠ none → s.readers = []
  main : s.MainOk l s.main
  worker : ∀ v, s.WorkerOk l v (s.worker v)

theorem ok_start : Ok [] start where
  has := ⟨rfl, rfl, trivial, List.nodup_nil⟩
  apart := fun h => absurd rfl h
  main := trivial
  worker := fun _ => trivial

variable {l l' : List ℕ} {s s' : State} {v : ℕ} {pc : Worker}

/-- A step that leaves the queue alone. -/
theorem WorkerOk.frame (h : s.WorkerOk l v pc) (hreaders : v ∈ s.readers → v ∈ s'.readers)
    (hwriter : s.writer = some (.worker v) → s'.writer = some (.worker v))
    (hq : ∀ jp, jp ∈ l ∨ s.q.workerOf jp = some v → s'.q.workerOf jp = s.q.workerOf jp)
    (hnew : ∀ jp, s.q.workerOf jp = some v → s'.main.newJob = some jp → s.main.newJob = some jp) :
    s'.WorkerOk l v pc := by
  have hkept : ∀ {jp}, jp ∉ l ∧ s.q.workerOf jp = some v ∧ s.main.newJob ≠ some jp →
      jp ∉ l ∧ s'.q.workerOf jp = some v ∧ s'.main.newJob ≠ some jp := by
    rintro jp ⟨hjp, hv, hmain⟩
    exact ⟨hjp, (hq jp (Or.inr hv)).trans hv, fun he => hmain (hnew jp hv he)⟩
  have hfound : ∀ {jp}, jp ∈ l ∧ s.q.workerOf jp = some v →
      jp ∈ l ∧ s'.q.workerOf jp = some v := by
    rintro jp ⟨hjp, hv⟩
    exact ⟨hjp, (hq jp (Or.inl hjp)).trans hv⟩
  cases pc with
  | search pJob =>
    obtain ⟨hr, pre, post, hl, hp, hpre⟩ := h
    refine ⟨hreaders hr, pre, post, hl, hp, fun jp hjp => ?_⟩
    rw [hq jp (Or.inl (hl ▸ List.mem_append_left post hjp))]
    exact hpre jp hjp
  | rdunlock pJob =>
    cases pJob with
    | none =>
      refine ⟨hreaders h.1, fun jp hjp => ?_⟩
      rw [hq jp (Or.inl hjp)]
      exact h.2 jp hjp
    | some jp => exact ⟨hreaders h.1, hfound h.2⟩
  | wrlock jp => exact hfound h
  | remove jp => exact ⟨hwriter h.1, hfound h.2⟩
  | wrunlock jp => exact ⟨hwriter h.1, hkept h.2⟩
  | unlock pJob =>
    cases pJob with
    | none => trivial
    | some jp => exact hkept h
  | run jp => exact hkept h
  | test | lock | rdlock | wait | blocked | woken | retest | exited => trivial

/-- A step that changes the queue, which nobody is reading. -/
theorem WorkerOk.relist (h : s.WorkerOk l v pc) (hreaders : s.readers = [])
    (hwriter : s.writer = some (.worker v) → s'.writer = some (.worker v))
    (hq : ∀ jp, s'.q.workerOf jp = s.q.workerOf jp)
    (hold : ∀ jp, s.q.workerOf jp = some v → jp ∈ l → jp ∈ l')
    (hadd : ∀ jp ∈ l', jp ∈ l ∨ s.main.newJob = some jp)
    (hnew : ∀ jp, s'.main.newJob = some jp → s.main.newJob = some jp) : s'.WorkerOk l' v pc := by
  have hread : v ∉ s.readers := hreaders ▸ List.not_mem_nil
  have hkept : ∀ {jp}, jp ∉ l ∧ s.q.workerOf jp = some v ∧ s.main.newJob ≠ some jp →
      jp ∉ l' ∧ s'.q.workerOf jp = some v ∧ s'.main.newJob ≠ some jp := by
    rintro jp ⟨hjp, hv, hmain⟩
    refine ⟨fun hmem => ?_, (hq jp).trans hv, fun he => hmain (hnew jp he)⟩
    rcases hadd jp hmem with hmem | he
    · exact hjp hmem
    · exact hmain he
  have hfound : ∀ {jp}, jp ∈ l ∧ s.q.workerOf jp = some v →
      jp ∈ l' ∧ s'.q.workerOf jp = some v := by
    rintro jp ⟨hjp, hv⟩
    exact ⟨hold jp hv hjp, (hq jp).trans hv⟩
  cases pc with
  | search pJob => exact absurd h.1 hread
  | rdunlock pJob =>
    cases pJob with
    | none => exact absurd h.1 hread
    | some jp => exact absurd h.1 hread
  | wrlock jp => exact hfound h
  | remove jp => exact ⟨hwriter h.1, hfound h.2⟩
  | wrunlock jp => exact ⟨hwriter h.1, hkept h.2⟩
  | unlock pJob =>
    cases pJob with
    | none => trivial
    | some jp => exact hkept h
  | run jp => exact hkept h
  | test | lock | rdlock | wait | blocked | woken | retest | exited => trivial

theorem MainOk.frame {pc : Main} (h : s.MainOk l pc)
    (hwriter : s.writer = some .main → s'.writer = some .main) (hl : ∀ jp ∈ l', jp ∈ l)
    (hq : ∀ jp, pc.newJob = some jp → s'.q.workerOf jp = s.q.workerOf jp) : s'.MainOk l' pc := by
  have hfresh : ∀ {jp}, pc.newJob = some jp → jp ∉ l ∧ s.q.workerOf jp ≠ none →
      jp ∉ l' ∧ s'.q.workerOf jp ≠ none := by
    rintro jp hjp ⟨hmem, hv⟩
    exact ⟨fun hmem' => hmem (hl jp hmem'), by rwa [hq jp hjp]⟩
  cases pc with
  | wrlock front jp => exact hfresh rfl h
  | link front jp => exact ⟨hwriter h.1, hfresh rfl h.2⟩
  | wrunlock jp => exact hwriter h
  | ready | signal | pause | stopLock | stopSignal | stopUnlock | join => trivial

/-- A step of a worker that leaves the queue alone. -/
theorem Ok.worker_go (h : Ok l s) (hq : s'.q = s.q) (hmain : s'.main = s.main)
    (hworker : s'.worker = Function.update s.worker v pc)
    (hapart : s'.writer ≠ none → s'.readers = [])
    (hreaders : ∀ u, u ≠ v → u ∈ s.readers → u ∈ s'.readers)
    (hwriter : ∀ t, t ≠ .worker v → s.writer = some t → s'.writer = some t)
    (hpc : s'.WorkerOk l v pc) : Ok l s' where
  has := hq ▸ h.has
  apart := hapart
  main := by
    rw [hmain]
    exact h.main.frame (hwriter _ nofun) (fun _ hjp => hjp) (fun _ _ => by rw [hq])
  worker := by
    intro u
    rw [hworker]
    by_cases hu : u = v
    · subst hu
      rwa [Function.update_self]
    · rw [Function.update_of_ne hu]
      refine (h.worker u).frame (hreaders u hu) (hwriter _ ?_) (fun _ _ => by rw [hq])
        (fun jp _ he => hmain ▸ he)
      exact fun he => hu (Thread.worker.inj he)

/-- A step of main that leaves the queue alone. It may wake up a worker. -/
theorem Ok.main_go (h : Ok l s) (hq : s'.q = s.q) (hreaders : s'.readers = s.readers)
    (hworker : ∀ u, s'.worker u = s.worker u ∨ s'.worker u = .woken)
    (hapart : s'.writer ≠ none → s'.readers = [])
    (hwriter : ∀ u, s.writer = some (.worker u) → s'.writer = some (.worker u))
    (hnew : ∀ jp, s'.main.newJob = some jp → s.main.newJob = some jp)
    (hpc : s'.MainOk l s'.main) : Ok l s' where
  has := hq ▸ h.has
  apart := hapart
  main := hpc
  worker := by
    intro u
    rcases hworker u with he | he
    · rw [he]
      exact (h.worker u).frame (fun hu => hreaders ▸ hu) (hwriter u) (fun _ _ => by rw [hq])
        fun jp _ => hnew jp
    · rw [he]
      trivial

theorem wake_worker (s : State) (v u : ℕ) :
    (s.wake v).worker u = s.worker u ∨ (s.wake v).worker u = .woken := by
  rw [wake]
  split
  · by_cases hu : u = v
    · subst hu
      exact Or.inr (Function.update_self ..)
    · exact Or.inl (Function.update_of_ne hu _ _)
  · exact Or.inl rfl

theorem wake_frame (s : State) (v : ℕ) : (s.wake v).q = s.q ∧ (s.wake v).writer = s.writer ∧
    (s.wake v).readers = s.readers ∧ (s.wake v).owner = s.owner ∧
    (s.wake v).gracefulStop = s.gracefulStop := by
  rw [wake]
  split <;> exact ⟨rfl, rfl, rfl, rfl, rfl⟩

/-- How a step changes the queue: main has added a job or a worker has taken one. -/
structure Change (l l' : List ℕ) (s s' : State) : Prop where
  added : ∀ jp ∈ l', jp ∈ l ∨ s'.main = .wrunlock jp
  same : ∀ jp ∈ l, s'.q.workerOf jp = s.q.workerOf jp
  removed : ∀ jp ∈ l, jp ∈ l' ∨ ∃ v, s.q.workerOf jp = some v ∧ s'.worker v = .wrunlock jp

theorem Change.refl (hq : s'.q = s.q) : Change l l s s' :=
  ⟨fun _ hjp => Or.inl hjp, fun _ _ => by rw [hq], fun _ hjp => Or.inl hjp⟩

/-- main links its new job into the queue. -/
theorem Ok.link (h : Ok l s) {front : Bool} {jp : ℕ} {q : Queue} (hmain : s.main = .link front jp)
    (hq : linkJob front s.q jp = some q) :
    ∃ l', Ok l' { s with q := q, main := .wrunlock jp } ∧
      Change l l' s { s with q := q, main := .wrunlock jp } := by
  obtain ⟨hwriter, hjp, hv⟩ : s.MainOk l (.link front jp) := hmain ▸ h.main
  obtain ⟨n, hn⟩ : ∃ n, s.q.heap jp = some n := by
    rw [Queue.workerOf, Ne, Option.map_eq_none_iff] at hv
    exact Option.ne_none_iff_exists'.mp hv
  have hreaders : s.readers = [] := h.apart (by rw [hwriter]; rintro ⟨⟩)
  obtain ⟨l', hhas, hworker, hmem⟩ : ∃ l', q.Has l' ∧ (∀ b, q.workerOf b = s.q.workerOf b) ∧
      ∀ b, b ∈ l' ↔ b ∈ l ∨ b = jp := by
    cases front with
    | true =>
      obtain ⟨q', hq', hhas, hworker⟩ := jobInsert_spec h.has hn hjp
      rw [linkJob, if_pos rfl, hq'] at hq
      cases hq
      exact ⟨jp :: l, hhas, hworker, fun b => List.mem_cons.trans or_comm⟩
    | false =>
      obtain ⟨q', hq', hhas, hworker⟩ := jobAppend_spec h.has hn hjp
      rw [linkJob, if_neg Bool.false_ne_true, hq'] at hq
      cases hq
      exact ⟨l ++ [jp], hhas, hworker, fun b => by rw [List.mem_append, List.mem_singleton]⟩
  refine ⟨l', ⟨hhas, fun _ => hreaders, hwriter, fun v => ?_⟩, fun b hb => ?_,
    fun b _ => hworker b, fun b hb => Or.inl ((hmem b).mpr (Or.inl hb))⟩
  · refine (h.worker v).relist hreaders id hworker (fun b _ hb => (hmem b).mpr (Or.inl hb))
      (fun b hb => ?_) (fun _ he => by cases he)
    rcases (hmem b).mp hb with hb | rfl
    · exact Or.inl hb
    · exact Or.inr (by rw [hmain]; rfl)
  · rcases (hmem b).mp hb with hb | rfl
    · exact Or.inl hb
    · exact Or.inr rfl

/-- A worker takes the job that it has found out of the queue. -/
theorem Ok.remove (h : Ok l s) {jp : ℕ} {q : Queue} (hpc : s.worker v = .remove jp)
    (hq : jobRemove s.q jp = some q) :
    ∃ l', Ok l' { s.go v (.wrunlock jp) with q := q } ∧
      Change l l' s { s.go v (.wrunlock jp) with q := q } := by
  obtain ⟨hwriter, hjp, hv⟩ : s.WorkerOk l v (.remove jp) := hpc ▸ h.worker v
  have hreaders : s.readers = [] := h.apart (by rw [hwriter]; nofun)
  obtain ⟨pre, post, rfl⟩ := List.append_of_mem hjp
  obtain ⟨q', hq', hhas, hworker⟩ := jobRemove_spec h.has
  rw [hq'] at hq
  cases hq
  have hnodup := h.has.nodup
  have hout : jp ∉ pre ++ post := (List.nodup_middle.mp hnodup).notMem
  have hmem : ∀ b, b ∈ pre ++ jp :: post ↔ b = jp ∨ b ∈ pre ++ post := by
    intro b
    rw [List.mem_append, List.mem_cons, List.mem_append]
    tauto
  refine ⟨pre ++ post, ⟨hhas, fun _ => hreaders, ?_, fun u => ?_⟩,
    fun b hb => Or.inl ((hmem b).mpr (Or.inr hb)), fun b _ => hworker b, fun b hb => ?_⟩
  · exact h.main.frame id (fun b hb => (hmem b).mpr (Or.inr hb)) (fun b _ => hworker b)
  · by_cases hu : u = v
    · subst hu
      simp only [go, Function.update_self]
      refine ⟨hwriter, hout, (hworker jp).trans hv, fun he => ?_⟩
      -- the job of main is not in the queue
      have hmain := h.main
      cases hm : s.main with
      | wrlock front a =>
        rw [hm] at hmain he
        exact hmain.1 (Option.some.inj he ▸ hjp)
      | link front a =>
        rw [hm] at hmain he
        exact hmain.2.1 (Option.some.inj he ▸ hjp)
      | ready | wrunlock | signal | pause | stopLock | stopSignal | stopUnlock | join =>
        rw [hm] at he
        cases he
    · simp only [go, Function.update_of_ne hu]
      refine (h.worker u).relist hreaders id hworker (fun b hb hbl => ?_)
        (fun b hb => Or.inl ((hmem b).mpr (Or.inr hb))) (fun _ he => he)
      rcases (hmem b).mp hbl with rfl | hbl
      · exact absurd (Option.some.inj (hb.symm.trans hv)) hu
      · exact hbl
  · rcases (hmem b).mp hb with rfl | hb
    · exact Or.inr ⟨v, hv, Function.update_self ..⟩
    · exact Or.inl hb

theorem Ok.step {n : ℕ} {e : Event} (h : Ok l s) (hs : s.step n e = some s') :
    ∃ l', Ok l' s' ∧ Change l l' s s' := by
  obtain ⟨henabled, heffect⟩ := step_eq_some hs
  cases e with
  | submit front jp job =>
    obtain ⟨hmain, hfree, -⟩ := henabled
    cases heffect
    have hjp : jp ∉ l := by
      intro hmem
      obtain ⟨n, hn⟩ := h.has.segment.alloc hmem
      rw [hfree] at hn
      cases hn
    have hnone : s.q.workerOf jp = none := by rw [Queue.workerOf, hfree, Option.map_none]
    have hother : ∀ b, b ≠ jp → (newJob s.q jp job).workerOf b = s.q.workerOf b :=
      fun b hb => workerOf_update hb _
    refine ⟨l, ⟨h.has.update hjp _, h.apart, ⟨hjp, ?_⟩, fun v => ?_⟩, fun b hb => Or.inl hb,
      fun b hb => hother b fun he => hjp (he ▸ hb), fun b hb => Or.inl hb⟩
    · simp [Queue.workerOf, newJob]
    · refine (h.worker v).frame id id (fun b hb => hother b ?_) (fun b hb he => ?_)
      · rintro rfl
        rcases hb with hb | hb
        · exact hjp hb
        · cases hnone.symm.trans hb
      · cases he
        cases hnone.symm.trans hb
  | wrlock front jp =>
    obtain ⟨hmain, hwriter, hreaders⟩ := henabled
    cases heffect
    have hjp : s.MainOk l (.wrlock front jp) := hmain ▸ h.main
    refine ⟨l, h.main_go rfl rfl (fun _ => Or.inl rfl) (fun _ => hreaders) (fun u hu => ?_)
      (fun b hb => ?_) ⟨rfl, hjp⟩, .refl rfl⟩
    · cases hwriter.symm.trans hu
    · rw [hmain]
      exact hb
  | link front jp =>
    obtain ⟨q, hq, heffect⟩ := Option.bind_eq_some_iff.mp heffect
    cases heffect
    exact h.link henabled hq
  | wrunlock jp =>
    cases heffect
    have hwriter : s.writer = some .main := (henabled ▸ h.main : s.MainOk l (.wrunlock jp))
    refine ⟨l, h.main_go rfl rfl (fun _ => Or.inl rfl) (fun hne => absurd rfl hne) (fun u hu => ?_)
      (fun _ he => by cases he) trivial, .refl rfl⟩
    cases hwriter.symm.trans hu
  | signal jp v =>
    cases heffect
    obtain ⟨hq, hwriter, hreaders, -⟩ := wake_frame s v
    refine ⟨l, h.main_go hq hreaders (wake_worker s v) ?_ (fun u hu => hwriter.trans hu)
      (fun _ he => by cases he) trivial, .refl hq⟩
    rw [hwriter, hreaders]
    exact h.apart
  | pause =>
    cases heffect
    exact ⟨l, h.main_go rfl rfl (fun _ => Or.inl rfl) h.apart (fun _ hu => hu)
      (fun _ he => by cases he) trivial, .refl rfl⟩
  | sigint =>
    cases heffect
    refine ⟨l, h.main_go rfl rfl (fun _ => Or.inl rfl) h.apart (fun _ hu => hu) (fun b hb => ?_) ?_,
      .refl rfl⟩
    · simp only at hb
      split at hb
      · rw [stopNext] at hb
        split at hb <;> cases hb
      · exact hb
    · simp only
      split
      · rw [stopNext]
        split <;> trivial
      · exact h.main.frame id (fun _ hjp => hjp) (fun _ _ => rfl)
  | stopLock i =>
    cases heffect
    exact ⟨l, h.main_go rfl rfl (fun _ => Or.inl rfl) h.apart (fun _ hu => hu)
      (fun _ he => by cases he) trivial, .refl rfl⟩
  | stopSignal i =>
    cases heffect
    obtain ⟨hq, hwriter, hreaders, -⟩ := wake_frame s i
    refine ⟨l, h.main_go hq hreaders (wake_worker s i) ?_ (fun u hu => hwriter.trans hu)
      (fun _ he => by cases he) trivial, .refl hq⟩
    rw [hwriter, hreaders]
    exact h.apart
  | stopUnlock i =>
    cases heffect
    refine ⟨l, h.main_go rfl rfl (fun _ => Or.inl rfl) h.apart (fun _ hu => hu) (fun b hb => ?_) ?_,
      .refl rfl⟩
    · simp only [stopNext] at hb
      split at hb <;> cases hb
    · simp only [stopNext]
      split <;> trivial
  | join i =>
    cases heffect
    exact ⟨l, h.main_go rfl rfl (fun _ => Or.inl rfl) h.apart (fun _ hu => hu)
      (fun _ he => by cases he) trivial, .refl rfl⟩
  | test v =>
    cases heffect
    refine ⟨l, h.worker_go rfl rfl rfl h.apart (fun _ _ hu => hu) (fun _ _ ht => ht) ?_, .refl rfl⟩
    split <;> trivial
  | lock v =>
    cases heffect
    exact ⟨l, h.worker_go rfl rfl rfl h.apart (fun _ _ hu => hu) (fun _ _ ht => ht) trivial,
      .refl rfl⟩
  | rdlock v =>
    obtain ⟨-, -, hwriter⟩ := henabled
    cases heffect
    refine ⟨l, h.worker_go rfl rfl rfl (fun hne => absurd hwriter hne)
      (fun u _ hu => List.mem_cons_of_mem v hu) (fun _ _ ht => ht) ?_, .refl rfl⟩
    exact ⟨List.mem_cons_self, [], l, rfl, h.has.head_eq, (fun _ he => by cases he)⟩
  | search v pJob =>
    obtain ⟨hreading, pre, post, hl, hp, hpre⟩ : s.WorkerOk l v (.search pJob) :=
      henabled.2 ▸ h.worker v
    cases post with
    | nil =>
      subst hp
      cases heffect
      rw [List.append_nil] at hl
      exact ⟨l, h.worker_go rfl rfl rfl h.apart (fun _ _ hu => hu) (fun _ _ ht => ht)
        ⟨hreading, hl ▸ hpre⟩, .refl rfl⟩
    | cons jp post =>
      subst hp
      obtain ⟨node, hnode, heffect⟩ := Option.bind_eq_some_iff.mp heffect
      cases heffect
      have hworker : s.q.workerOf jp = some node.val.jWorker := by
        rw [Queue.workerOf, hnode, Option.map_some]
      refine ⟨l, h.worker_go rfl rfl rfl h.apart (fun _ _ hu => hu) (fun _ _ ht => ht) ?_,
        .refl rfl⟩
      split
      · rename_i he
        have hjp : jp ∈ l := hl ▸ List.mem_append_right pre List.mem_cons_self
        exact ⟨hreading, hjp, hworker.trans (congrArg some he)⟩
      · rename_i hne
        refine ⟨hreading, pre ++ [jp], post, ?_, ?_, fun b hb => ?_⟩
        · rw [hl, List.append_assoc]
          rfl
        · have hseg := h.has.segment
          rw [hl] at hseg
          obtain ⟨-, ⟨m, hm, -, hnext⟩, -⟩ := segment_append.mp hseg
          rw [hnode] at hm
          rw [Option.some.inj hm, hnext]
        · rcases List.mem_append.mp hb with hb | hb
          · exact hpre b hb
          · rw [List.mem_singleton.mp hb]
            exact fun he => hne (Option.some.inj (hworker.symm.trans he))
  | rdunlock v pJob =>
    cases heffect
    have hok : s.WorkerOk l v (.rdunlock pJob) := henabled.2 ▸ h.worker v
    refine ⟨l, h.worker_go rfl rfl rfl (fun hne => ?_)
      (fun u hu hmem => (List.mem_erase_of_ne hu).mpr hmem) (fun _ _ ht => ht) ?_, .refl rfl⟩
    · simp only [h.apart hne, List.erase_nil]
    · cases pJob with
      | none => trivial
      | some jp => exact hok.2
  | wait v =>
    cases heffect
    exact ⟨l, h.worker_go rfl rfl rfl h.apart (fun _ _ hu => hu) (fun _ _ ht => ht) trivial,
      .refl rfl⟩
  | spurious v =>
    cases heffect
    exact ⟨l, h.worker_go rfl rfl rfl h.apart (fun _ _ hu => hu) (fun _ _ ht => ht) trivial,
      .refl rfl⟩
  | relock v =>
    cases heffect
    exact ⟨l, h.worker_go rfl rfl rfl h.apart (fun _ _ hu => hu) (fun _ _ ht => ht) trivial,
      .refl rfl⟩
  | retest v =>
    cases heffect
    refine ⟨l, h.worker_go rfl rfl rfl h.apart (fun _ _ hu => hu) (fun _ _ ht => ht) ?_, .refl rfl⟩
    split <;> trivial
  | jobWrlock v jp =>
    obtain ⟨-, hpc, hwriter, hreaders⟩ := henabled
    cases heffect
    have hok : s.WorkerOk l v (.wrlock jp) := hpc ▸ h.worker v
    refine ⟨l, h.worker_go rfl rfl rfl (fun _ => hreaders) (fun _ _ hu => hu) (fun t _ ht => ?_)
      ⟨rfl, hok⟩, .refl rfl⟩
    cases hwriter.symm.trans ht
  | remove v jp =>
    obtain ⟨q, hq, heffect⟩ := Option.bind_eq_some_iff.mp heffect
    cases heffect
    exact h.remove henabled.2 hq
  | jobWrunlock v jp =>
    cases heffect
    obtain ⟨hwriter, hok⟩ : s.WorkerOk l v (.wrunlock jp) := henabled.2 ▸ h.worker v
    refine ⟨l, h.worker_go rfl rfl rfl (fun hne => absurd rfl hne) (fun _ _ hu => hu)
      (fun t hne ht => ?_) hok, .refl rfl⟩
    exact absurd (Option.some.inj (ht.symm.trans hwriter)) hne
  | unlock v pJob =>
    cases heffect
    have hok : s.WorkerOk l v (.unlock pJob) := henabled.2 ▸ h.worker v
    refine ⟨l, h.worker_go rfl rfl rfl h.apart (fun _ _ hu => hu) (fun _ _ ht => ht) ?_, .refl rfl⟩
    cases pJob with
    | none => trivial
    | some jp => exact hok
  | run v jp =>
    cases heffect
    obtain ⟨hjp, hv, hnew⟩ : s.WorkerOk l v (.run jp) := henabled.2 ▸ h.worker v
    have hother : ∀ b, b ≠ jp → (freeJob s.q jp).workerOf b = s.q.workerOf b :=
      fun b hb => workerOf_update hb _
    have hne : ∀ b ∈ l, b ≠ jp := fun b hb he => hjp (he ▸ hb)
    refine ⟨l, ⟨h.has.update hjp _, h.apart, ?_, fun u => ?_⟩, fun b hb => Or.inl hb,
      fun b hb => hother b (hne b hb), fun b hb => Or.inl hb⟩
    · exact h.main.frame id (fun _ hb => hb) fun b hb => hother b fun he => hnew (he ▸ hb)
    · by_cases hu : u = v
      · subst hu
        simp only [go, Function.update_self]
        trivial
      · simp only [go, Function.update_of_ne hu]
        refine (h.worker u).frame id id (fun b hb => hother b ?_) (fun _ _ he => he)
        rintro rfl
        rcases hb with hb | hb
        · exact hjp hb
        · exact hu (Option.some.inj (hb.symm.trans hv))

end State

end Apue.Pool
