import Apue.HerdLookups
import Apue.MonitorWakeups
import Apue.Ownership

/-!
The worker threads of Ex11_3_workerthrd_thundering_herd.c, which all wait on one condition
variable: any number of threads put jobs into the queue, and the threads of the pool take
out their own ones. A job is memory that malloc has returned, and the worker that has
handled it frees it. The queue lies in a memory of finitely many addresses, so that the
loop of job_find is over after that many jobs.

Over it stands a ledger: the jobs of the queue in order, and which thread was handed which
job. Every run of the threads is one of the ledger.
-/
namespace Apue.HerdPool

open Monitors Ownership DoublyLinked Rwlock Herd Programs

/-- What a thread calls: job_insert or job_append with a new job, or job_fetch_atomic. -/
inductive Op
  | insert (jp : ℕ) (job : Job)
  | append (jp : ℕ) (job : Job)
  | fetch (tid : ℕ)

/-- create_jobs fills in the memory that malloc has returned; the links are set later. -/
def newJob (q : Queue) (jp : ℕ) (job : Job) : Queue :=
  { q with heap := Function.update q.heap jp (some ⟨none, none, job⟩) }

def freeJob (q : Queue) (jp : ℕ) : Option Queue :=
  (q.heap jp).map fun _ => { q with heap := Function.update q.heap jp none }

/-- A worker fetches its own jobs, and the others make jobs for the workers. -/
def Op.allowed (pool : ℕ → Prop) (memory p : ℕ) : Op → Queue → Prop
  | .insert jp job, q | .append jp job, q =>
    ¬ pool p ∧ pool job.jId ∧ jp < memory ∧ q.heap jp = none
  | .fetch tid, _ => pool p ∧ tid = p

def Op.enter : Op → Queue → Queue
  | .insert jp job, q | .append jp job, q => newJob q jp job
  | .fetch _, q => q

/-- The loop of job_fetch_atomic goes on until job_find has found a job. -/
def Op.test (memory : ℕ) : Op → Queue → Option (Option ℕ)
  | .insert jp _, _ | .append jp _, _ => some (some jp)
  | .fetch tid, q => jobFind (memory + 1) q tid

def Op.act : Op → ℕ → Queue → Option Queue
  | .insert _ _, jp, q => jobInsert q jp
  | .append _ _, jp, q => jobAppend q jp
  | .fetch _, jp, q => jobRemove q jp

def Op.inside : Op → Notify
  | .insert _ _ | .append _ _ => .broadcast
  | .fetch _ => .nothing

/-- The worker frees the job that it has handled. -/
def Op.exit : Op → ℕ → Queue → Option Queue
  | .insert _ _, _, q | .append _ _, _, q => some q
  | .fetch _, jp, q => freeJob q jp

/-- The threads in `pool` are workers. -/
def herd (pool : ℕ → Prop) (memory : ℕ) : Monitor ℕ Op Queue ℕ where
  allowed := Op.allowed pool memory
  enter := Op.enter
  test := Op.test memory
  act := Op.act
  inside := Op.inside
  outside _ := .nothing
  exit := Op.exit

/-- No thread has done anything, and nothing is allocated. -/
def start : State ℕ Op Queue ℕ := ⟨queueInit fun _ => none, none, fun _ => .idle⟩

/-- A job with the memory it lies in. -/
abbrev Entry := ℕ × Job

/-- The jobs in the queue, and the jobs that the threads were handed. -/
structure Ledger where
  queue : List Entry
  handed : List (ℕ × Entry)

def mine (tid : ℕ) (e : Entry) : Bool := equal tid e.2

/-- The first job of the thread is handed out. -/
def Ledger.fetch (led : Ledger) (p jp : ℕ) : Option Ledger := do
  let e ← led.queue.find? (mine p)
  if e.1 = jp then some ⟨led.queue.eraseP (mine p), led.handed ++ [(p, e)]⟩ else none

def Ledger.step (led : Ledger) : Label ℕ Op ℕ → Option Ledger
  | .act _ (.insert jp job) _ => some { led with queue := (jp, job) :: led.queue }
  | .act _ (.append jp job) _ => some { led with queue := led.queue ++ [(jp, job)] }
  | .act p (.fetch tid) jp => if tid = p then led.fetch p jp else none
  | _ => some led

/-- The job that is put into the queue. -/
def Op.job : Op → Option Entry
  | .insert jp job | .append jp job => some (jp, job)
  | .fetch _ => none

/-- The jobs that were put into the queue. -/
def submitted (tr : List (Label ℕ Op ℕ)) : List Entry := tr.filterMap fun
  | .act _ o _ => o.job
  | _ => none

/-- The job that a thread has and that is not in the queue. -/
def holding : Atomic.Status Op ℕ → Option ℕ
  | .before o => o.job.map Prod.fst
  | .after (.fetch _) jp => some jp
  | _ => none

/-- Every job is in one place: in the queue, or in the hands of the thread that makes it or
has taken it. -/
structure Placed (pool : ℕ → Prop) (memory : ℕ) (l : List Entry)
    (s : Atomic.State ℕ Op Queue ℕ) : Prop where
  has : s.data.Has (l.map Prod.fst)
  owned : Owned (fun jp => s.data.heap jp ≠ none) (l.map Prod.fst) fun p => holding (s.status p)
  vals : ∀ e ∈ l, (s.data.heap e.1).map Node.val = some e.2 ∧ pool e.2.jId
  below : ∀ {jp : ℕ}, s.data.heap jp ≠ none → jp < memory
  made : ∀ {p : ℕ} {o : Op} {e : Entry}, s.status p = .before o → o.job = some e →
    (s.data.heap e.1).map Node.val = some e.2 ∧ pool e.2.jId
  fetches : ∀ {p tid : ℕ}, s.status p = .before (.fetch tid) → pool p ∧ tid = p

variable {pool : ℕ → Prop} {memory : ℕ} {l l' : List Entry} {e : Entry} {p : ℕ} {q : Queue}
  {s s' : Atomic.State ℕ Op Queue ℕ}

theorem placed_start : Placed pool memory [] start.atomic where
  has := ⟨rfl, rfl, trivial, List.nodup_nil⟩
  owned := .empty (fun _ h => h rfl) fun _ => rfl
  vals _ he := absurd he List.not_mem_nil
  below h := absurd rfl h
  made h := by cases h
  fetches h := by cases h

theorem ne_none_iff {heap heap' : Heap ℕ Job} {a : ℕ}
    (h : (heap' a).map Node.val = (heap a).map Node.val) : heap' a ≠ none ↔ heap a ≠ none := by
  rw [ne_eq, ne_eq, ← Option.map_eq_none_iff (f := Node.val), h, Option.map_eq_none_iff]

/-- Only memory outside the list has changed. -/
theorem has_congr {l : List ℕ} (h : q.Has l) {heap : Heap ℕ Job}
    (heq : ∀ a ∈ l, heap a = q.heap a) : Queue.Has { q with heap := heap } l :=
  ⟨h.head_eq, h.tail_eq, segment_congr heq h.segment, h.nodup⟩

theorem holding_of_job {o : Op} (h : s.status p = .before o) (ho : o.job = some e) :
    holding (s.status p) = some e.1 := by
  rw [h, holding, ho]
  rfl

/-- malloc returns memory that nobody has. -/
theorem Placed.unqueued (h : Placed pool memory l s) {jp : ℕ} (hjp : s.data.heap jp = none) :
    jp ∉ l.map Prod.fst := fun hmem => h.owned.queued hmem hjp

/-- A thread with empty hands goes on, and its hands stay empty. -/
theorem Placed.go (h : Placed pool memory l s) {x : Atomic.Status Op ℕ}
    (hp : holding (s.status p) = none) (hx : holding x = none)
    (hfetch : ∀ tid, x = .before (.fetch tid) → pool p ∧ tid = p) :
    Placed pool memory l ⟨s.data, Function.update s.status p x⟩ := by
  refine ⟨h.has, h.owned.congr (fun _ => Iff.rfl) (fun _ => Iff.rfl) fun r => ?_, h.vals, h.below,
    fun hr ho => ?_, fun hr => ?_⟩
  · rw [Function.apply_update fun _ => holding, hx, ← hp, Function.update_eq_self]
  · rcases update_cases hr with ⟨rfl, rfl⟩ | ⟨-, hr⟩
    · rw [holding, ho] at hx
      cases hx
    · exact h.made hr ho
  · rcases update_cases hr with ⟨rfl, rfl⟩ | ⟨-, hr⟩
    · exact hfetch _ rfl
    · exact h.fetches hr

/-- A thread makes a job. -/
theorem Placed.make (h : Placed pool memory l s) {o : Op} (hp : s.status p = .idle)
    (ho : o.job = some e) (hpool : pool e.2.jId) (hbelow : e.1 < memory)
    (hfree : s.data.heap e.1 = none) :
    Placed pool memory l ⟨newJob s.data e.1 e.2, Function.update s.status p (.before o)⟩ := by
  have hheap : (newJob s.data e.1 e.2).heap e.1 = some ⟨none, none, e.2⟩ := Function.update_self ..
  have hother : ∀ b, b ≠ e.1 → (newJob s.data e.1 e.2).heap b = s.data.heap b :=
    fun b hb => Function.update_of_ne hb _ _
  have hne : ∀ b ∈ l.map Prod.fst, b ≠ e.1 := fun b hb he => h.unqueued hfree (he ▸ hb)
  have halive : ∀ b, (newJob s.data e.1 e.2).heap b ≠ none ↔ b = e.1 ∨ s.data.heap b ≠ none := by
    intro b
    by_cases hb : b = e.1
    · rw [hb, hheap]
      exact iff_of_true (Option.some_ne_none _) (.inl rfl)
    · rw [hother b hb, or_iff_right hb]
  have hempty : holding (s.status p) = none := by rw [hp]; rfl
  refine ⟨has_congr h.has fun b hb => hother b (hne b hb), ?_, fun e' he' => ?_, fun hb => ?_,
    fun hr ho' => ?_, fun hr => ?_⟩
  · refine (h.owned.make hempty (not_not.mpr hfree) halive).congr (fun _ => Iff.rfl)
      (fun _ => Iff.rfl) fun r => ?_
    rw [Function.apply_update fun _ => holding, holding, ho]
    rfl
  · rw [hother e'.1 (hne e'.1 (List.mem_map_of_mem he'))]
    exact h.vals e' he'
  · rcases (halive _).mp hb with rfl | hb
    · exact hbelow
    · exact h.below hb
  · rcases update_cases hr with ⟨rfl, he⟩ | ⟨-, hr⟩
    · cases he
      obtain rfl := Option.some.inj (ho.symm.trans ho')
      rw [hheap]
      exact ⟨rfl, hpool⟩
    · have hhold := holding_of_job hr ho'
      rw [hother _ fun he => (h.owned.held hhold).1 (by rw [he]; exact hfree)]
      exact h.made hr ho'
  · rcases update_cases hr with ⟨rfl, he⟩ | ⟨-, hr⟩
    · cases he
      cases ho
    · exact h.fetches hr

/-- Links have changed, and the hands of the thread `p`. -/
theorem Placed.link (h : Placed pool memory l s) {x : Atomic.Status Op ℕ}
    (hq : q.Has (l'.map Prod.fst))
    (hvals : ∀ b, (q.heap b).map Node.val = (s.data.heap b).map Node.val)
    (howned : Owned (fun jp => s.data.heap jp ≠ none) (l'.map Prod.fst)
      (Function.update (fun r => holding (s.status r)) p (holding x)))
    (hl : ∀ e ∈ l', (s.data.heap e.1).map Node.val = some e.2 ∧ pool e.2.jId)
    (hx : ∀ o, x ≠ .before o) :
    Placed pool memory l' ⟨q, Function.update s.status p x⟩ := by
  refine ⟨hq, howned.congr (fun b => ne_none_iff (hvals b)) (fun _ => Iff.rfl)
    (Function.apply_update (fun _ => holding) _ _ _), fun e he => ?_,
    fun hb => h.below ((ne_none_iff (hvals _)).mp hb), fun hr ho => ?_, fun hr => ?_⟩
  · rw [hvals]
    exact hl e he
  · rcases update_cases hr with ⟨rfl, he⟩ | ⟨-, hr⟩
    · exact absurd he (hx _)
    · rw [hvals]
      exact h.made hr ho
  · rcases update_cases hr with ⟨rfl, he⟩ | ⟨-, hr⟩
    · exact absurd he (hx _)
    · exact h.fetches hr

/-- The job that a thread has made goes into the queue, at either end. -/
theorem Placed.enqueue (h : Placed pool memory l s) {o : Op} {a : ℕ} (hp : s.status p = .before o)
    (ho : o.job = some e) (hq : q.Has (l'.map Prod.fst)) (hl : ∀ e', e' ∈ l' ↔ e' = e ∨ e' ∈ l)
    (hvals : ∀ b, (q.heap b).map Node.val = (s.data.heap b).map Node.val) :
    Placed pool memory l' ⟨q, Function.update s.status p (.after o a)⟩ := by
  have hempty : holding (.after o a) = none := by
    cases o with
    | insert jp job => rfl
    | append jp job => rfl
    | fetch tid => cases ho
  refine h.link hq hvals ?_ (fun e' he' => ?_) fun o' he => by cases he
  · rw [hempty]
    refine h.owned.put (holding_of_job hp ho) fun b => ?_
    simp only [List.mem_map, hl]
    constructor
    · rintro ⟨e', rfl | he', rfl⟩
      · exact .inl rfl
      · exact .inr ⟨e', he', rfl⟩
    · rintro (rfl | ⟨e', he', rfl⟩)
      · exact ⟨e, .inl rfl, rfl⟩
      · exact ⟨e', .inr he', rfl⟩
  · rcases (hl e').mp he' with rfl | he'
    · exact h.made hp ho
    · exact h.vals e' he'

/-- A worker takes a job out of the queue. -/
theorem Placed.take (h : Placed pool memory l s) {tid : ℕ} {pre post : List Entry}
    (hl : l = pre ++ e :: post) (hp : s.status p = .before (.fetch tid))
    (hq : q.Has ((pre ++ post).map Prod.fst))
    (hvals : ∀ b, (q.heap b).map Node.val = (s.data.heap b).map Node.val) :
    Placed pool memory (pre ++ post) ⟨q, Function.update s.status p (.after (.fetch tid) e.1)⟩ := by
  subst hl
  have hmem : e ∈ pre ++ e :: post := List.mem_append_right _ List.mem_cons_self
  have hnot : e.1 ∉ (pre ++ post).map Prod.fst := by
    have hnodup := h.has.nodup
    rw [List.map_append, List.map_cons, List.nodup_middle] at hnodup
    rw [List.map_append]
    exact (List.nodup_cons.mp hnodup).1
  have hempty : holding (s.status p) = none := by rw [hp]; rfl
  refine h.link hq hvals (h.owned.take hempty (List.mem_map_of_mem hmem) fun b => ?_)
    (fun e' he' => h.vals e' ?_) fun o he => by cases he
  · constructor
    · intro hb
      refine ⟨?_, fun he => hnot (he ▸ hb)⟩
      rw [List.map_append] at hb ⊢
      rw [List.map_cons]
      exact ((List.sublist_cons_self e.1 _).append_left _).subset hb
    · rintro ⟨hb, hne⟩
      simpa only [List.map_append, List.map_cons, List.mem_append, List.mem_cons, hne,
        false_or] using hb
  · exact ((List.sublist_cons_self e post).append_left pre).subset he'

/-- The worker frees the job that it has. -/
theorem Placed.free (h : Placed pool memory l s) {tid jp : ℕ}
    (hp : s.status p = .after (.fetch tid) jp) :
    Placed pool memory l ⟨{ s.data with heap := Function.update s.data.heap jp none },
      Function.update s.status p .idle⟩ := by
  have hhold : holding (s.status p) = some jp := by rw [hp]; rfl
  have hl := (h.owned.held hhold).2
  have hother : ∀ b, b ≠ jp → Function.update s.data.heap jp none b = s.data.heap b :=
    fun b hb => Function.update_of_ne hb _ _
  have hne : ∀ b ∈ l.map Prod.fst, b ≠ jp := fun b hb he => hl (he ▸ hb)
  have halive : ∀ b, Function.update s.data.heap jp none b ≠ none ↔
      s.data.heap b ≠ none ∧ b ≠ jp := by
    intro b
    by_cases hb : b = jp
    · subst hb
      rw [Function.update_self]
      exact iff_of_false (fun h => h rfl) fun h => h.2 rfl
    · rw [hother b hb, and_iff_left hb]
  refine ⟨has_congr h.has fun b hb => hother b (hne b hb), ?_, fun e' he' => ?_,
    fun hb => h.below ((halive _).mp hb).1, fun hr ho => ?_, fun hr => ?_⟩
  · exact (h.owned.free hhold halive).congr (fun _ => Iff.rfl) (fun _ => Iff.rfl)
      (Function.apply_update (fun _ => holding) _ _ _)
  · change (Function.update s.data.heap jp none e'.1).map Node.val = _ ∧ _
    rw [hother e'.1 (hne e'.1 (List.mem_map_of_mem he'))]
    exact h.vals e' he'
  · rcases update_cases hr with ⟨rfl, he⟩ | ⟨hrp, hr⟩
    · cases he
    · change (Function.update s.data.heap jp none _).map Node.val = _ ∧ _
      have hhold' := holding_of_job hr ho
      rw [hother _ fun he => hrp (h.owned.apart hhold' (by rw [he]; exact hhold))]
      exact h.made hr ho
  · rcases update_cases hr with ⟨rfl, he⟩ | ⟨-, hr⟩
    · cases he
    · exact h.fetches hr

end Apue.HerdPool
