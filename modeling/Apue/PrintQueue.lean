import Apue.DoublyLinked
import Apue.Decimal

/-!
The queue of pending print jobs: a doubly linked list with a pointer to each
end. The three functions are the critical sections under joblock, and each of
them fails only on a pointer to memory that is not allocated. On a well-formed
queue they append, put back at the front and take out.
-/
namespace Apue.Print

open DoublyLinked Decimal

/-- The data of `struct job`; its links are those of the node. -/
structure Job where
  jobid : ℤ
  req : List Byte
  deriving DecidableEq

structure Queue where
  heap : Heap ℕ Job
  jobhead : Option ℕ
  jobtail : Option ℕ

/-- What add_job does to its new node before it takes the lock. The field prev
is set only later. -/
def newJob (q : Queue) (jp : ℕ) (job : Job) : Queue :=
  { q with heap := Function.update q.heap jp (some ⟨none, none, job⟩) }

/-- The critical section of add_job. -/
def addJob (q : Queue) (jp : ℕ) : Option Queue := do
  let heap ← setPrev q.heap jp q.jobtail
  let heap ← setNextIf heap q.jobtail (some jp)
  return ⟨heap, if q.jobtail = none then some jp else q.jobhead, some jp⟩

/-- The critical section of replace_job. -/
def replaceJob (q : Queue) (jp : ℕ) : Option Queue := do
  let heap ← setPrev q.heap jp none
  let heap ← setNext heap jp q.jobhead
  let heap ← setPrevIf heap q.jobhead (some jp)
  return ⟨heap, some jp, if q.jobhead = none then some jp else q.jobtail⟩

def removeJob (q : Queue) (target : ℕ) : Option Queue := do
  let n ← q.heap target
  let heap ← setPrevIf q.heap n.next n.prev
  let heap ← setNextIf heap n.prev n.next
  return ⟨heap, if n.prev = none then n.next else q.jobhead,
    if n.next = none then n.prev else q.jobtail⟩

def freeJob (q : Queue) (jp : ℕ) : Queue := { q with heap := Function.update q.heap jp none }

/-- The queue is well formed and has the nodes `l`. -/
def Queue.Has (q : Queue) (l : List ℕ) : Prop := IsList q.heap q.jobhead q.jobtail l

variable {q : Queue} {l : List ℕ} {jp : ℕ}

theorem Queue.Has.congr {q' : Queue} (h : q.Has l) (hhead : q'.jobhead = q.jobhead)
    (htail : q'.jobtail = q.jobtail) (hheap : ∀ a ∈ l, q'.heap a = q.heap a) : q'.Has l where
  head_eq := hhead.trans h.head_eq
  tail_eq := htail.trans h.tail_eq
  segment := segment_congr hheap h.segment
  nodup := h.nodup

/-- A new node that points nowhere is appended; other nodes outside the queue
are not touched. -/
theorem addJob_spec (h : q.Has l) {n : Node ℕ Job} (hn : q.heap jp = some n) (hnext : n.next = none)
    (hjp : jp ∉ l) :
    ∃ q', addJob q jp = some q' ∧ q'.Has (l ++ [jp]) ∧
      (∀ b, b ∉ l → b ≠ jp → q'.heap b = q.heap b) ∧
      ∀ b, (q'.heap b).map Node.val = (q.heap b).map Node.val := by
  obtain ⟨heap₁, heap₂, hset₁, hset₂, hlist, hframe, hval⟩ := h.link_back hn hnext hjp
  refine ⟨⟨heap₂, if q.jobtail = none then some jp else q.jobhead, some jp⟩, ?_, hlist, hframe, hval⟩
  simp only [addJob, Option.bind_eq_bind, hset₁, Option.bind_some, hset₂]
  rfl

/-- A node outside the queue is put back at its head. -/
theorem replaceJob_spec (h : q.Has l) {n : Node ℕ Job} (hn : q.heap jp = some n) (hjp : jp ∉ l) :
    ∃ q', replaceJob q jp = some q' ∧ q'.Has (jp :: l) ∧
      (∀ b, b ∉ l → b ≠ jp → q'.heap b = q.heap b) ∧
      ∀ b, (q'.heap b).map Node.val = (q.heap b).map Node.val := by
  obtain ⟨heap₁, heap₂, heap₃, hset₁, hset₂, hset₃, hlist, hframe, hval⟩ := h.link_front hn hjp
  refine ⟨⟨heap₃, some jp, if q.jobhead = none then some jp else q.jobtail⟩, ?_, hlist, hframe, hval⟩
  simp only [replaceJob, Option.bind_eq_bind, hset₁, Option.bind_some, hset₂, hset₃]
  rfl

/-- Any job of the queue is taken out; its own node is left as it is. -/
theorem removeJob_spec {pre post : List ℕ} (h : q.Has (pre ++ jp :: post)) :
    ∃ q', removeJob q jp = some q' ∧ q'.Has (pre ++ post) ∧
      (∀ b, b ∉ pre ++ post → q'.heap b = q.heap b) ∧
      ∀ b, (q'.heap b).map Node.val = (q.heap b).map Node.val := by
  obtain ⟨n, heap₁, heap₂, hn, hprev, hnext, hset₁, hset₂, hseg, hframe, hval⟩ :=
    h.segment.unlink h.nodup
  obtain ⟨hhead, htail⟩ := h.ends_unlink
  refine ⟨⟨heap₂, if n.prev = none then n.next else q.jobhead,
    if n.next = none then n.prev else q.jobtail⟩, ?_, ⟨?_, ?_, hseg, ?_⟩, hframe, hval⟩
  · simp only [removeJob, hn, Option.bind_eq_bind, Option.bind_some, hset₁, hset₂]
    rfl
  · simp only [hprev, hnext, hhead]
  · simp only [hprev, hnext, htail]
  · exact (List.Sublist.append_left (List.sublist_cons_self jp post) pre).nodup h.nodup

end Apue.Print
