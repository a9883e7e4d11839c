import Apue.DoublyLinked
import Apue.PoolQueue

/-!
The job queue under a reader-writer lock, as rwlock.c has it, beside the one of the worker pool
in Ex11_3_workerthrd.c. The two differ in how a job is taken out: rwlock.c looks at the ends of
the queue, and the pool at the links of the job. The functions are the sections under q_lock.
-/
namespace Apue.Rwlock

open DoublyLinked

/-- The data of `struct job` in rwlock.c: the thread that handles the job. -/
structure Job where
  jId : ℕ
  deriving DecidableEq

structure Queue where
  heap : Heap ℕ Job
  qHead : Option ℕ
  qTail : Option ℕ

def queueInit (heap : Heap ℕ Job) : Queue := ⟨heap, none, none⟩

def jobInsert (q : Queue) (jp : ℕ) : Option Queue := do
  let heap ← setNext q.heap jp q.qHead
  let heap ← setPrev heap jp none
  let heap ← setPrevIf heap q.qHead (some jp)
  return ⟨heap, some jp, if q.qHead = none then some jp else q.qTail⟩

def jobAppend (q : Queue) (jp : ℕ) : Option Queue := do
  let heap ← setNext q.heap jp none
  let heap ← setPrev heap jp q.qTail
  let heap ← setNextIf heap q.qTail (some jp)
  return ⟨heap, if q.qTail = none then some jp else q.qHead, some jp⟩

/-- The removal by position: the first job, the last one, or one between them. -/
def jobRemove (q : Queue) (jp : ℕ) : Option Queue := do
  let n ← q.heap jp
  if some jp = q.qHead then
    if q.qTail = some jp then return ⟨q.heap, n.next, none⟩
    else do
      let next ← n.next
      let heap ← setPrev q.heap next n.prev
      return ⟨heap, n.next, q.qTail⟩
  else if some jp = q.qTail then do
    let prev ← n.prev
    let heap ← setNext q.heap prev n.next
    return ⟨heap, q.qHead, n.prev⟩
  else do
    let prev ← n.prev
    let heap ← setNext q.heap prev n.next
    let n' ← heap jp
    let next ← n'.next
    let heap ← setPrev heap next n'.prev
    return ⟨heap, q.qHead, q.qTail⟩

/-- The loop of job_find over at most `fuel` jobs, for a test of the data of a job. -/
def findLoop {V : Type} (equal : V → Bool) (heap : Heap ℕ V) : ℕ → Option ℕ → Option (Option ℕ)
  | 0, _ => none
  | _ + 1, none => some none
  | fuel + 1, some jp => do
    let n ← heap jp
    if equal n.val then some (some jp) else findLoop equal heap fuel n.next

/-- job_find of rwlock.c. The lock call may fail. -/
def jobFind (lockError : ℕ) (fuel : ℕ) (q : Queue) (id : ℕ) : Option (Option ℕ) :=
  if lockError ≠ 0 then some none
  else findLoop (fun job => job.jId == id) q.heap fuel q.qHead

/-- job_find of the pool, whose workers have the threads `tid`. -/
def poolJobFind (tid : ℕ → ℕ) (lockError : ℕ) (fuel : ℕ) (q : Pool.Queue) (id : ℕ) :
    Option (Option ℕ) :=
  if lockError ≠ 0 then some none
  else findLoop (fun job => tid job.jWorker == id) q.heap fuel q.qHead

/-- The queue is well formed and has the nodes `l`. -/
def Queue.Has (q : Queue) (l : List ℕ) : Prop := IsList q.heap q.qHead q.qTail l

section Links

variable {V : Type}

theorem exists_setNext_setPrev {heap : Heap ℕ V} {a : ℕ} {n : Node ℕ V} (hn : heap a = some n)
    (v p : Option ℕ) :
    ∃ heap₁ heap₁' heap₂, setNext heap a v = some heap₁ ∧ setPrev heap₁ a p = some heap₂ ∧
      setPrev heap a p = some heap₁' ∧ setNext heap₁' a v = some heap₂ := by
  refine ⟨_, _, Function.update heap a (some ⟨v, p, n.val⟩), by rw [setNext, hn]; rfl, ?_,
    by rw [setPrev, hn]; rfl, ?_⟩
  · simp only [setPrev, Function.update_self, Option.map_some, Function.update_idem]
  · simp only [setNext, Function.update_self, Option.map_some, Function.update_idem]

/-- A job is the first of a list exactly when no job is before it. -/
theorem firstOr_eq_iff {pre post : List ℕ} {a : ℕ} (hnodup : (pre ++ a :: post).Nodup) :
    some a = firstOr (pre ++ a :: post) none ↔ pre = [] := by
  cases pre with
  | nil => exact iff_of_true rfl rfl
  | cons b pre =>
    refine iff_of_false (fun h => ?_) (List.cons_ne_nil b pre)
    obtain rfl := Option.some.inj h
    exact (List.nodup_cons.mp hnodup).1 (List.mem_append_right _ List.mem_cons_self)

theorem lastOr_eq_iff {pre post : List ℕ} {a : ℕ} (hnodup : (pre ++ a :: post).Nodup) :
    some a = lastOr (pre ++ a :: post) none ↔ post = [] := by
  rcases List.eq_nil_or_concat' post with rfl | ⟨post, b, rfl⟩
  · rw [lastOr_concat]
    exact iff_of_true rfl rfl
  · refine iff_of_false (fun h => ?_) (List.append_ne_nil_of_right_ne_nil _ (List.cons_ne_nil b []))
    rw [← List.cons_append, ← List.append_assoc, lastOr_concat] at h
    obtain rfl := Option.some.inj h
    have hmem := (List.nodup_append.mp hnodup).2.1
    exact (List.nodup_cons.mp hmem).1 (List.mem_append_right _ List.mem_cons_self)

/-- The loop finds the first job that passes the test. -/
theorem findLoop_eq {equal : V → Bool} {heap : Heap ℕ V} {p : Option ℕ} {l : List ℕ}
    (h : Segment heap p l none) {fuel : ℕ} (hfuel : l.length < fuel) :
    findLoop equal heap fuel (firstOr l none) =
      some (l.find? fun jp => ((heap jp).map Node.val).any equal) := by
  induction l generalizing p fuel with
  | nil =>
    obtain ⟨fuel, rfl⟩ := Nat.exists_eq_add_one.mpr hfuel
    rfl
  | cons a l ih =>
    rw [List.length_cons] at hfuel
    obtain ⟨fuel, rfl⟩ := Nat.exists_eq_add_one.mpr (show 0 < fuel by omega)
    obtain ⟨⟨n, hn, -, hnext⟩, hrest⟩ := h
    have htest : ((heap a).map Node.val).any equal = equal n.val := by rw [hn]; rfl
    simp only [firstOr, findLoop, hn, Option.bind_eq_bind, Option.bind_some]
    by_cases hequal : equal n.val = true
    · simp only [List.find?_cons, htest, hequal, if_true]
    · simp only [List.find?_cons, htest, eq_false_of_ne_true hequal, hnext, Bool.false_eq_true,
        if_false]
      exact ih hrest (by omega)

end Links

variable {q : Queue} {l : List ℕ} {jp : ℕ}

theorem jobInsert_spec (h : q.Has l) {n : Node ℕ Job} (hn : q.heap jp = some n) (hjp : jp ∉ l) :
    ∃ q', jobInsert q jp = some q' ∧ q'.Has (jp :: l) ∧
      ∀ b, (q'.heap b).map Node.val = (q.heap b).map Node.val := by
  obtain ⟨heap₁, heap₂, heap₃, hset₁, hset₂, hset₃, hlist, -, hval⟩ := h.link_front hn hjp
  obtain ⟨heap₁', heap₁'', heap₂', hnext, hprev, hprev', hnext'⟩ :=
    exists_setNext_setPrev hn q.qHead none
  obtain rfl := Option.some.inj (hprev'.symm.trans hset₁)
  obtain rfl := Option.some.inj (hnext'.symm.trans hset₂)
  refine ⟨⟨heap₃, some jp, if q.qHead = none then some jp else q.qTail⟩, ?_, hlist, hval⟩
  simp only [jobInsert, Option.bind_eq_bind, hnext, Option.bind_some, hprev, hset₃]
  rfl

theorem jobAppend_spec (h : q.Has l) {n : Node ℕ Job} (hn : q.heap jp = some n) (hjp : jp ∉ l) :
    ∃ q', jobAppend q jp = some q' ∧ q'.Has (l ++ [jp]) ∧
      ∀ b, (q'.heap b).map Node.val = (q.heap b).map Node.val := by
  obtain ⟨heap₁, hset₁⟩ := exists_setNext hn none
  have hne : ∀ b ∈ l, b ≠ jp := fun b hb he => hjp (he ▸ hb)
  have hlist₁ : IsList heap₁ q.qHead q.qTail l :=
    ⟨h.head_eq, h.tail_eq, segment_congr (fun b hb => setNext_of_ne hset₁ (hne b hb)) h.segment,
      h.nodup⟩
  obtain ⟨m, -, hheap₁⟩ := setNext_eq_some hset₁
  have hn₁ : heap₁ jp = some { m with next := none } := by rw [hheap₁, Function.update_self]
  obtain ⟨heap₂, heap₃, hset₂, hset₃, hlist, -, hval⟩ := hlist₁.link_back hn₁ rfl hjp
  refine ⟨⟨heap₃, if q.qTail = none then some jp else q.qHead, some jp⟩, ?_, hlist,
    fun b => (hval b).trans (setNext_val hset₁ b)⟩
  simp only [jobAppend, Option.bind_eq_bind, hset₁, Option.bind_some, hset₂, hset₃]
  rfl

/-- A member stands at one place of the sequence. -/
theorem exists_split {l : List ℕ} {jp : ℕ} (h : jp ∈ l) (hnodup : l.Nodup) :
    ∃ pre post, l = pre ++ jp :: post ∧ l.erase jp = pre ++ post := by
  obtain ⟨pre, post, rfl⟩ := List.append_of_mem h
  have hpre : jp ∉ pre := fun hmem =>
    (List.nodup_append.mp hnodup).2.2 jp hmem jp List.mem_cons_self rfl
  exact ⟨pre, post, rfl, by rw [List.erase_append_right _ hpre, List.erase_cons_head]⟩

/-- The removal by position does what the removal by links does, on each of the four places
that the job can have. -/
theorem jobRemove_spec {pre post : List ℕ} (h : q.Has (pre ++ jp :: post)) :
    ∃ q', jobRemove q jp = some q' ∧ q'.Has (pre ++ post) ∧ q'.heap jp = q.heap jp ∧
      ∀ b, (q'.heap b).map Node.val = (q.heap b).map Node.val := by
  obtain ⟨n, heap₁, heap₂, hn, hprev, hnext, hset₁, hn₁, hset₂, hseg, hframe, hval⟩ :=
    h.segment.unlink_next h.nodup
  obtain ⟨hhead, htail⟩ := h.ends_unlink
  have hnodup := (List.Sublist.append_left (List.sublist_cons_self jp post) pre).nodup h.nodup
  have hapart : jp ∉ pre ++ post := fun hmem =>
    (List.nodup_cons.mp (List.perm_middle.nodup_iff.mp h.nodup)).1 hmem
  have hfirst : some jp = q.qHead ↔ pre = [] := h.head_eq ▸ firstOr_eq_iff h.nodup
  have hlast : some jp = q.qTail ↔ post = [] := h.tail_eq ▸ lastOr_eq_iff h.nodup
  have hdone : ∀ q', jobRemove q jp = some q' → q'.heap = heap₂ →
      q'.qHead = (if lastOr pre none = none then firstOr post none else q.qHead) →
      q'.qTail = (if firstOr post none = none then lastOr pre none else q.qTail) →
      ∃ q', jobRemove q jp = some q' ∧ q'.Has (pre ++ post) ∧ q'.heap jp = q.heap jp ∧
        ∀ b, (q'.heap b).map Node.val = (q.heap b).map Node.val := by
    rintro ⟨_, _, _⟩ hremove rfl rfl rfl
    exact ⟨_, hremove, ⟨hhead, htail, hseg, hnodup⟩, hframe jp hapart, hval⟩
  cases pre with
  | nil =>
    -- the node before is not there, so only the node after is changed
    have hsame : heap₁ = q.heap := by
      rw [hprev] at hset₁
      exact (Option.some.inj hset₁).symm
    subst hsame
    cases post with
    | nil =>
      rw [hnext] at hset₂
      obtain rfl := Option.some.inj hset₂
      refine hdone ⟨q.heap, n.next, none⟩ ?_ rfl hnext rfl
      simp only [jobRemove, hn, Option.bind_eq_bind, Option.bind_some]
      rw [if_pos (hfirst.mpr rfl), if_pos (hlast.mpr rfl).symm]
      rfl
    | cons b post =>
      have hset : setPrev q.heap b n.prev = some heap₂ := by
        rw [hnext] at hset₂
        exact hset₂
      refine hdone ⟨heap₂, n.next, q.qTail⟩ ?_ rfl hnext rfl
      simp only [jobRemove, hn, Option.bind_eq_bind, Option.bind_some]
      rw [if_pos (hfirst.mpr rfl),
        if_neg fun he => absurd (hlast.mp he.symm) (List.cons_ne_nil b post)]
      simp only [hnext, firstOr, Option.bind_some, hset]
      rfl
  | cons a pre =>
    have hnotFirst : ¬ some jp = q.qHead := fun he => absurd (hfirst.mp he) (List.cons_ne_nil a pre)
    have hsome := lastOr_ne_none (List.cons_ne_nil a pre) none
    obtain ⟨c, hc⟩ := Option.ne_none_iff_exists'.mp hsome
    rw [hprev, hc] at hset₁
    have hset : setNext q.heap c n.next = some heap₁ := hset₁
    cases post with
    | nil =>
      have hsame : heap₁ = heap₂ := by
        rw [hnext] at hset₂
        exact Option.some.inj hset₂
      subst hsame
      refine hdone ⟨heap₁, q.qHead, n.prev⟩ ?_ rfl (if_neg hsome).symm
        (hprev.trans (if_pos rfl).symm)
      simp only [jobRemove, hn, Option.bind_eq_bind, Option.bind_some]
      rw [if_neg hnotFirst, if_pos (hlast.mpr rfl)]
      simp only [hprev, hc, Option.bind_some, hset]
      rfl
    | cons b post =>
      have hb : n.next = some b := hnext
      have hc' : n.prev = some c := hprev.trans hc
      have hset' : setPrev heap₁ b n.prev = some heap₂ := by
        rw [hnext] at hset₂
        exact hset₂
      rw [hb] at hset
      rw [hc'] at hset'
      refine hdone ⟨heap₂, q.qHead, q.qTail⟩ ?_ rfl (if_neg hsome).symm rfl
      simp only [jobRemove, hn, Option.bind_eq_bind, Option.bind_some]
      rw [if_neg hnotFirst, if_neg fun he => absurd (hlast.mp he) (List.cons_ne_nil b post)]
      simp only [hb, hc', Option.bind_some, hset, hn₁, hset']
      rfl

end Apue.Rwlock
