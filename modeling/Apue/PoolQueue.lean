import Apue.DoublyLinked
import Mathlib.Data.Int.Notation

/-!
The job queue of the worker pool. Every job is meant for one worker, which is the
only one that takes it out again. The functions are the sections under q_lock;
they fail only on a pointer to memory that is not allocated.
-/
namespace Apue.Pool

open DoublyLinked

/-- The data of `struct job`; its links are those of the node. A worker is known by
its place in the pool. -/
structure Job where
  jId : ℤ
  jWorker : ℕ
  deriving DecidableEq

structure Queue where
  heap : Heap ℕ Job
  qHead : Option ℕ
  qTail : Option ℕ

def emptyQueue : Queue := ⟨fun _ => none, none, none⟩

/-- create_jobs fills in the memory that malloc has returned; the links are set
later. -/
def newJob (q : Queue) (jp : ℕ) (job : Job) : Queue :=
  { q with heap := Function.update q.heap jp (some ⟨none, none, job⟩) }

def jobInsert (q : Queue) (jp : ℕ) : Option Queue := do
  let heap ← setPrev q.heap jp none
  let heap ← setNext heap jp q.qHead
  let heap ← setPrevIf heap q.qHead (some jp)
  return ⟨heap, some jp, if q.qHead = none then some jp else q.qTail⟩

def jobAppend (q : Queue) (jp : ℕ) : Option Queue := do
  let heap ← setNext q.heap jp none
  let heap ← setPrev heap jp q.qTail
  let heap ← setNextIf heap q.qTail (some jp)
  return ⟨heap, if q.qTail = none then some jp else q.qHead, some jp⟩

def jobRemove (q : Queue) (jp : ℕ) : Option Queue := do
  let n ← q.heap jp
  let heap ← setNextIf q.heap n.prev n.next
  let n' ← heap jp
  let heap ← setPrevIf heap n'.next n'.prev
  return ⟨heap, if n.prev = none then n.next else q.qHead,
    if n'.next = none then n'.prev else q.qTail⟩

def freeJob (q : Queue) (jp : ℕ) : Queue := { q with heap := Function.update q.heap jp none }

/-- The worker that a job is meant for. -/
def Queue.workerOf (q : Queue) (jp : ℕ) : Option ℕ := (q.heap jp).map fun n => n.val.jWorker

/-- The first nodes that the next links lead to. -/
def walk (heap : Heap ℕ Job) : ℕ → Option ℕ → List ℕ
  | 0, _ => []
  | _, none => []
  | fuel + 1, some jp =>
    match heap jp with
    | none => [jp]
    | some n => jp :: walk heap fuel n.next

/-- The queue holds a job for worker `v`. -/
def Queue.HoldsFor (q : Queue) (v : ℕ) : Prop :=
  ∃ fuel, ∃ jp ∈ walk q.heap fuel q.qHead, q.workerOf jp = some v

/-- The queue is well formed and has the nodes `l`. -/
def Queue.Has (q : Queue) (l : List ℕ) : Prop := IsList q.heap q.qHead q.qTail l

theorem mem_of_mem_walk {heap : Heap ℕ Job} {p : Option ℕ} {l : List ℕ} {fuel jp : ℕ}
    (h : Segment heap p l none) (hmem : jp ∈ walk heap fuel (firstOr l none)) : jp ∈ l := by
  induction l generalizing p fuel with
  | nil =>
    cases fuel with
    | zero => exact hmem
    | succ fuel => exact hmem
  | cons a l ih =>
    cases fuel with
    | zero => exact absurd hmem List.not_mem_nil
    | succ fuel =>
      obtain ⟨⟨n, hn, -, hnext⟩, hrest⟩ := h
      rw [firstOr, walk, hn] at hmem
      rcases List.mem_cons.mp hmem with rfl | hmem
      · exact List.mem_cons_self
      · rw [hnext] at hmem
        exact List.mem_cons_of_mem _ (ih hrest hmem)

theorem Queue.Has.mem_of_holdsFor {q : Queue} {l : List ℕ} {v : ℕ} (h : q.Has l)
    (hv : q.HoldsFor v) : ∃ jp ∈ l, q.workerOf jp = some v := by
  obtain ⟨fuel, jp, hmem, hjp⟩ := hv
  rw [h.head_eq] at hmem
  exact ⟨jp, mem_of_mem_walk h.segment hmem, hjp⟩

variable {q : Queue} {l : List ℕ} {jp : ℕ}

theorem workerOf_congr {q' : Queue} (h : (q'.heap jp).map Node.val = (q.heap jp).map Node.val) :
    q'.workerOf jp = q.workerOf jp := by
  have hmap := congrArg (Option.map Job.jWorker) h
  rwa [Option.map_map, Option.map_map] at hmap

theorem Queue.Has.workerOf {jp : ℕ} (h : q.Has l) (hjp : jp ∈ l) : ∃ v, q.workerOf jp = some v := by
  obtain ⟨n, hn⟩ := h.segment.alloc hjp
  exact ⟨n.val.jWorker, by rw [Queue.workerOf, hn, Option.map_some]⟩

/-- A node outside the queue is put in front of it. -/
theorem jobInsert_spec (h : q.Has l) {n : Node ℕ Job} (hn : q.heap jp = some n) (hjp : jp ∉ l) :
    ∃ q', jobInsert q jp = some q' ∧ q'.Has (jp :: l) ∧
      ∀ b, q'.workerOf b = q.workerOf b := by
  obtain ⟨heap₁, heap₂, heap₃, hset₁, hset₂, hset₃, hlist, -, hval⟩ := h.link_front hn hjp
  refine ⟨⟨heap₃, some jp, if q.qHead = none then some jp else q.qTail⟩, ?_, hlist,
    fun b => workerOf_congr (hval b)⟩
  simp only [jobInsert, Option.bind_eq_bind, hset₁, Option.bind_some, hset₂, hset₃]
  rfl

/-- A node outside the queue is put behind it. -/
theorem jobAppend_spec (h : q.Has l) {n : Node ℕ Job} (hn : q.heap jp = some n) (hjp : jp ∉ l) :
    ∃ q', jobAppend q jp = some q' ∧ q'.Has (l ++ [jp]) ∧
      ∀ b, q'.workerOf b = q.workerOf b := by
  obtain ⟨heap₁, hset₁⟩ := exists_setNext hn none
  have hne : ∀ b ∈ l, b ≠ jp := fun b hb he => hjp (he ▸ hb)
  have hlist₁ : IsList heap₁ q.qHead q.qTail l :=
    ⟨h.head_eq, h.tail_eq, segment_congr (fun b hb => setNext_of_ne hset₁ (hne b hb)) h.segment,
      h.nodup⟩
  obtain ⟨m, -, hheap₁⟩ := setNext_eq_some hset₁
  have hn₁ : heap₁ jp = some { m with next := none } := by rw [hheap₁, Function.update_self]
  obtain ⟨heap₂, heap₃, hset₂, hset₃, hlist, -, hval⟩ := hlist₁.link_back hn₁ rfl hjp
  refine ⟨⟨heap₃, if q.qTail = none then some jp else q.qHead, some jp⟩, ?_, hlist,
    fun b => workerOf_congr ((hval b).trans (setNext_val hset₁ b))⟩
  simp only [jobAppend, Option.bind_eq_bind, hset₁, Option.bind_some, hset₂, hset₃]
  rfl

/-- A job of the queue is taken out. -/
theorem jobRemove_spec {pre post : List ℕ} (h : q.Has (pre ++ jp :: post)) :
    ∃ q', jobRemove q jp = some q' ∧ q'.Has (pre ++ post) ∧
      ∀ b, q'.workerOf b = q.workerOf b := by
  obtain ⟨n, heap₁, heap₂, hn, hprev, hnext, hset₁, hn₁, hset₂, hseg, -, hval⟩ :=
    h.segment.unlink_next h.nodup
  obtain ⟨hhead, htail⟩ := h.ends_unlink
  refine ⟨⟨heap₂, if n.prev = none then n.next else q.qHead,
    if n.next = none then n.prev else q.qTail⟩, ?_, ⟨?_, ?_, hseg, ?_⟩,
    fun b => workerOf_congr (hval b)⟩
  · simp only [jobRemove, hn, Option.bind_eq_bind, Option.bind_some, hset₁, hn₁, hset₂]
    rfl
  · simp only [hprev, hnext, hhead]
  · simp only [hprev, hnext, htail]
  · exact (List.Sublist.append_left (List.sublist_cons_self jp post) pre).nodup h.nodup

/-- Memory outside the queue is filled in or freed. -/
theorem Queue.Has.update (h : q.Has l) (hjp : jp ∉ l) (cell : Option (Node ℕ Job)) :
    Queue.Has { q with heap := Function.update q.heap jp cell } l := by
  have hagree : ∀ b ∈ l, Function.update q.heap jp cell b = q.heap b := by
    intro b hb
    have hne : b ≠ jp := fun he => hjp (he ▸ hb)
    exact Function.update_of_ne hne _ _
  exact ⟨h.head_eq, h.tail_eq, segment_congr hagree h.segment, h.nodup⟩

theorem workerOf_update {b : ℕ} (hb : b ≠ jp) (cell : Option (Node ℕ Job)) :
    Queue.workerOf { q with heap := Function.update q.heap jp cell } b = q.workerOf b := by
  simp only [Queue.workerOf, Function.update_of_ne hb]

end Apue.Pool
