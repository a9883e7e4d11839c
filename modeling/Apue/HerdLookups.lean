import Apue.Programs
import Apue.RwlockQueue

/-!
The look-ups in the job queue whose workers all wait on one condition variable. The wrapper of
job_find locks the queue and then calls itself, where the fetch calls job_find: q_lock is a mutex
of the default kind, so the second call waits for the lock that the first one holds. The
links of a job and its removal are those of the queue of rwlock.c.
-/
namespace Apue.Herd

open Programs DoublyLinked Rwlock

/-- What the threads share: the queue, and the thread that holds q_lock. -/
structure Shared where
  q : Queue
  owner : Option ℕ

/-- The calls of one thread. The loop of job_find looks at `fuel` jobs at most; it and job_remove
are one call each, since they are made under q_lock. -/
inductive Call
  | lock
  | unlock
  | find (fuel tid : ℕ)
  | remove (jp : ℕ)

def Call.Ret : Call → Type
  | lock => ℕ
  | unlock => Unit
  | find _ _ => Option ℕ
  | remove _ => Unit

abbrev sig : Signature := ⟨Call, Call.Ret⟩

/-- job_find_atomic as it is written, cut off at a depth of the recursion. -/
def jobFindAtomic : ℕ → ℕ → Prog sig (Option ℕ)
  | 0, _ => .diverge
  | depth + 1, tid => do
    let err ← (Prog.call (S := sig) .lock .ret : Prog sig ℕ)
    if err ≠ 0 then return none
    else do
      let pJob ← jobFindAtomic depth tid
      (Prog.call (S := sig) .unlock .ret : Prog sig Unit)
      return pJob

/-- pthread_cond_wait, which may return without a signal. -/
def condWait : Prog sig Unit := do
  (Prog.call (S := sig) .unlock .ret : Prog sig Unit)
  let _ ← (Prog.call (S := sig) .lock .ret : Prog sig ℕ)
  return ()

/-- The loop of job_fetch_atomic, cut off after a number of turns. -/
def fetchLoop (fuel tid : ℕ) : ℕ → Prog sig ℕ
  | 0 => .diverge
  | turns + 1 => do
    match ← (Prog.call (S := sig) (.find fuel tid) .ret : Prog sig (Option ℕ)) with
    | some pJob => return pJob
    | none => do
      condWait
      fetchLoop fuel tid turns

/-- job_fetch_atomic after its lock call. -/
def fetchLocked (fuel turns tid : ℕ) : Prog sig (Option ℕ) := do
  let pJob ← fetchLoop fuel tid turns
  (Prog.call (S := sig) (.remove pJob) .ret : Prog sig Unit)
  (Prog.call (S := sig) .unlock .ret : Prog sig Unit)
  return some pJob

def jobFetchAtomic (fuel turns tid : ℕ) : Prog sig (Option ℕ) := do
  let err ← (Prog.call (S := sig) .lock .ret : Prog sig ℕ)
  if err ≠ 0 then return none
  else fetchLocked fuel turns tid

/-- `pthread_equal(pJob->j_tid.tid, tid)` -/
def equal (tid : ℕ) (job : Job) : Bool := job.jId == tid

def jobFind (fuel : ℕ) (q : Queue) (tid : ℕ) : Option (Option ℕ) :=
  findLoop (equal tid) q.heap fuel q.qHead

/-- What a call of the thread `self` does. A thread that calls pthread_mutex_lock while the
mutex has an owner, itself or another one, goes on only when there is none any more. -/
def serve (self : ℕ) : (c : Call) → Shared → Option (c.Ret × Shared)
  | .lock, s => if s.owner = none then some ((0 : ℕ), { s with owner := some self }) else none
  | .unlock, s => if s.owner = some self then some ((), { s with owner := none }) else none
  | .find fuel tid, s => (jobFind fuel s.q tid).map fun r => (r, s)
  | .remove jp, s => (jobRemove s.q jp).map fun q => ((), { s with q := q })

abbrev Config := Prog sig (Option ℕ) × Shared

inductive Own (self : ℕ) : Config → Config → Prop
  | call {c : Call} {k : c.Ret → Prog sig (Option ℕ)} {s s' : Shared} {r : c.Ret}
      (h : serve self c s = some (r, s')) : Own self (.call c k, s) (k r, s')

/-- The thread takes a step, or the others do what they like. They neither change the queue nor
unlock it while it is the thread's own. -/
inductive Step (self : ℕ) : Config → Config → Prop
  | own {c d : Config} (h : Own self c d) : Step self c d
  | others {p : Prog sig (Option ℕ)} {s s' : Shared} (h : s.owner ≠ some self)
      (h' : s'.owner ≠ some self) : Step self (p, s) (p, s')

abbrev Reach (self : ℕ) := Relation.ReflTransGen (Step self)

/-- The first job of the thread `tid`. -/
def firstJob (q : Queue) (l : List ℕ) (tid : ℕ) : Option ℕ :=
  l.find? fun jp => ((q.heap jp).map Node.val).any (equal tid)

/-- On a queue with the jobs `l` that nobody has locked, job_find_atomic can come to its end and
has then found the first job of the thread. -/
def FindOk (self tid : ℕ) (q : Queue) (l : List ℕ) : Prop :=
  ∃ depth, Reach self (jobFindAtomic depth tid, ⟨q, none⟩) (.ret (firstJob q l tid), ⟨q, none⟩)

/-- If the thread has a job, then job_fetch_atomic, from its lock call on, takes the first one out
of the queue and returns it, whatever the others do. -/
def FetchOk (self tid : ℕ) (q : Queue) (l : List ℕ) : Prop :=
  ∀ jp, firstJob q l tid = some jp → ∃ q', q'.Has (l.erase jp) ∧
    (∀ b, (q'.heap b).map Node.val = (q.heap b).map Node.val) ∧
    ∀ fuel turns, l.length < fuel → ∃ c,
      (∀ d, Own self (jobFetchAtomic fuel (turns + 1) tid, ⟨q, none⟩) d ↔ d = c) ∧
      Passes (Step self) c (.ret (some jp), ⟨q', none⟩)

variable {self tid depth : ℕ} {s s' : Shared} {q : Queue} {l : List ℕ} {c d : Config}

/-- Nothing can happen any more. -/
def Stuck (self : ℕ) (c : Config) : Prop := ∀ d, ¬ Step self c d

theorem own_iff {cl : Call} {k : cl.Ret → Prog sig (Option ℕ)} {r : cl.Ret}
    (h : serve self cl s = some (r, s')) : Own self (.call cl k, s) d ↔ d = (k r, s') := by
  constructor
  · intro hown
    cases hown with
    | call h' =>
      obtain ⟨rfl, rfl⟩ := Prod.mk.inj (Option.some.inj (h'.symm.trans h))
      rfl
  · rintro rfl
    exact .call h

/-- Under q_lock the thread is alone. -/
theorem step_iff {p : Prog sig (Option ℕ)} (howner : s.owner = some self) :
    Step self (p, s) d ↔ Own self (p, s) d := by
  constructor
  · intro h
    cases h with
    | own h => exact h
    | others h _ => exact absurd howner h
  · exact .own

/-- A thread that calls pthread_mutex_lock under its own lock. -/
theorem stuck_of_lock (howner : s.owner = some self) (k : ℕ → Prog sig (Option ℕ)) :
    Stuck self (.call .lock k, s) := by
  intro d h
  cases (step_iff howner).mp h with
  | call hserve =>
    have hfree := (Option.ite_none_right_eq_some.mp hserve).1
    rw [howner] at hfree
    cases hfree

theorem stuck_of_diverge (howner : s.owner = some self) : Stuck self (.diverge, s) := by
  intro d h
  cases (step_iff howner).mp h

/-- What follows a recursive call of job_find_atomic under the lock is never reached. -/
theorem stuck_of_find (howner : s.owner = some self) (f : Option ℕ → Prog sig (Option ℕ)) :
    Stuck self (jobFindAtomic depth tid >>= f, s) ∧
      ∀ r, (jobFindAtomic depth tid >>= f) ≠ .ret r := by
  cases depth with
  | zero => exact ⟨stuck_of_diverge howner, nofun⟩
  | succ depth => exact ⟨stuck_of_lock howner _, nofun⟩

/-- job_find_atomic comes to its second lock call and no further. -/
theorem find_runs (hs : s.owner ≠ some self) (hreach : Reach self (jobFindAtomic depth tid, s) c) :
    c.1 = jobFindAtomic depth tid ∧ c.2.owner ≠ some self ∨
      Stuck self c ∧ ∀ r, c.1 ≠ .ret r := by
  induction hreach with
  | refl => exact .inl ⟨rfl, hs⟩
  | @tail c d _ hstep ih =>
    rcases ih with ⟨hprog, howner⟩ | hstuck
    · obtain ⟨p, s₁⟩ := c
      obtain rfl : p = jobFindAtomic depth tid := hprog
      cases hstep with
      | others _ h => exact .inl ⟨rfl, h⟩
      | own hown =>
        cases depth with
        | zero => cases hown
        | succ depth =>
          have hserve : serve self .lock s₁ = some ((0 : ℕ), { s₁ with owner := some self }) := by
            cases hown with
            | call h =>
              exact if_pos (Option.ite_none_right_eq_some.mp h).1
          rw [(own_iff hserve).mp hown]
          exact .inr (stuck_of_find rfl _)
    · exact absurd hstep (hstuck.1 _)

theorem find_never_returns (hs : s.owner ≠ some self) (r : Option ℕ) :
    ¬ Reach self (jobFindAtomic depth tid, s) (.ret r, s') := by
  intro hreach
  rcases find_runs hs hreach with ⟨hprog, -⟩ | ⟨-, hret⟩
  · cases depth with
    | zero => cases hprog
    | succ depth => cases hprog
  · exact hret r rfl

/-- A step under q_lock has no alternative. -/
theorem passes_call {cl : Call} {k : cl.Ret → Prog sig (Option ℕ)} {r : cl.Ret}
    (howner : s.owner = some self) (h : serve self cl s = some (r, s'))
    (hrest : Passes (Step self) (k r, s') d) : Passes (Step self) (.call cl k, s) d :=
  hrest.head fun _ => (step_iff howner).trans (own_iff h)

theorem jobFind_eq (h : q.Has l) {fuel : ℕ} (hfuel : l.length < fuel) :
    jobFind fuel q tid = some (firstJob q l tid) := by
  unfold jobFind firstJob
  rw [h.head_eq]
  exact findLoop_eq h.segment hfuel

/-- The fetch takes the job that it finds out of the queue. -/
theorem fetch_ok (h : q.Has l) : FetchOk self tid q l := by
  intro jp hfirst
  obtain ⟨pre, post, rfl, herase⟩ := exists_split (List.mem_of_find?_eq_some hfirst) h.nodup
  obtain ⟨q', hremove, hhas, -, hvals⟩ := jobRemove_spec h
  refine ⟨q', herase ▸ hhas, hvals, fun fuel turns hfuel => ?_⟩
  have hfind : serve self (.find fuel tid) ⟨q, some self⟩ = some (some jp, ⟨q, some self⟩) := by
    change (jobFind fuel q tid).map _ = _
    rw [jobFind_eq h hfuel, hfirst]
    rfl
  have hserve : serve self (.remove jp) ⟨q, some self⟩ = some ((), ⟨q', some self⟩) := by
    change (jobRemove q jp).map _ = _
    rw [hremove]
    rfl
  refine ⟨(fetchLocked fuel (turns + 1) tid, ⟨q, some self⟩), fun d => ?_, ?_⟩
  · exact @own_iff self ⟨q, none⟩ ⟨q, some self⟩ d .lock _ (0 : ℕ) rfl
  · have hunlock : serve self .unlock ⟨q', some self⟩ = some ((), ⟨q', none⟩) := if_pos rfl
    exact passes_call rfl hfind (passes_call rfl hserve (passes_call rfl hunlock (.refl _ _)))

/-- job_find_atomic never returns, and job_fetch_atomic is right. -/
theorem atomic_lookups (self tid : ℕ) (h : q.Has l) :
    (∀ depth s, s.owner ≠ some self → ∀ r s',
      ¬ Reach self (jobFindAtomic depth tid, s) (.ret r, s')) ∧ FetchOk self tid q l :=
  ⟨fun _ _ hs r _ => find_never_returns hs r, fetch_ok h⟩

/-- A queue with one job of the thread 7. -/
def oneJob : Queue := ⟨Function.update (fun _ => none) 1 (some ⟨none, none, ⟨7⟩⟩), some 1, some 1⟩

theorem oneJob_has : oneJob.Has [1] :=
  ⟨rfl, rfl, ⟨⟨_, rfl, rfl, rfl⟩, trivial⟩, List.nodup_singleton 1⟩

theorem atomic_lookups_oneJob : (∀ depth s, s.owner ≠ some 0 → ∀ r s',
    ¬ Reach 0 (jobFindAtomic depth 7, s) (.ret r, s')) ∧ FetchOk 0 7 oneJob [1] :=
  atomic_lookups 0 7 oneJob_has

theorem not_find_ok : ¬ ∀ (self tid : ℕ) (q : Queue) (l : List ℕ), q.Has l →
    FindOk self tid q l ∧ FetchOk self tid q l := by
  intro h
  obtain ⟨depth, hreach⟩ := (h 0 7 oneJob [1] oneJob_has).1
  exact find_never_returns (by decide) _ hreach

end Apue.Herd
