import Apue.RwlockQueue

/-!
The two job queues in runs of the same calls. Both denote the sequence of jobs that the calls
build, so their ends and the links of their jobs are the same, before a removal and after it.
-/
namespace Apue.Rwlock

open DoublyLinked

inductive Op
  | insert (jp : ℕ)
  | append (jp : ℕ)
  | remove (jp : ℕ)

/-- What a call does with the sequence of jobs. -/
def Op.apply (l : List ℕ) : Op → List ℕ
  | .insert jp => jp :: l
  | .append jp => l ++ [jp]
  | .remove jp => l.erase jp

/-- A job that comes into the queue has memory and is not in the queue; a job that is removed
is in it. -/
def Op.Valid (alloc : ℕ → Prop) (l : List ℕ) : Op → Prop
  | .insert jp => alloc jp ∧ jp ∉ l
  | .append jp => alloc jp ∧ jp ∉ l
  | .remove jp => jp ∈ l

theorem Op.Valid.mono {alloc alloc' : ℕ → Prop} (halloc : ∀ a, alloc a → alloc' a) {l : List ℕ}
    {op : Op} (h : op.Valid alloc l) : op.Valid alloc' l := by
  cases op with
  | insert jp => exact ⟨halloc jp h.1, h.2⟩
  | append jp => exact ⟨halloc jp h.1, h.2⟩
  | remove jp => exact h

def ValidRun (alloc : ℕ → Prop) : List ℕ → List Op → Prop
  | _, [] => True
  | l, op :: ops => op.Valid alloc l ∧ ValidRun alloc (op.apply l) ops

/-- A call to the queue of rwlock.c. -/
def call (q : Queue) : Op → Option Queue
  | .insert jp => jobInsert q jp
  | .append jp => jobAppend q jp
  | .remove jp => jobRemove q jp

/-- A call to the queue of the pool. -/
def poolCall (w : Pool.Queue) : Op → Option Pool.Queue
  | .insert jp => Pool.jobInsert w jp
  | .append jp => Pool.jobAppend w jp
  | .remove jp => Pool.jobRemove w jp

def poolQueueInit (heap : Heap ℕ Pool.Job) : Pool.Queue := ⟨heap, none, none⟩

def links {V : Type} (n : Node ℕ V) : Option ℕ × Option ℕ := (n.next, n.prev)

/-- The queues have the same ends, and the jobs `l` have the same links in both. -/
structure SameLinks (q : Queue) (w : Pool.Queue) (l : List ℕ) : Prop where
  qHead : q.qHead = w.qHead
  qTail : q.qTail = w.qTail
  links : ∀ a ∈ l, (q.heap a).map links = (w.heap a).map links

/-- A segment determines the links of its nodes. -/
theorem links_eq_of_segment {V W : Type} {heap : Heap ℕ V} {heap' : Heap ℕ W} {p e : Option ℕ}
    {l : List ℕ} (h : Segment heap p l e) (h' : Segment heap' p l e) :
    ∀ a ∈ l, (heap a).map links = (heap' a).map links := by
  induction l generalizing p with
  | nil => exact fun a ha => absurd ha List.not_mem_nil
  | cons b l ih =>
    obtain ⟨⟨n, hn, hprev, hnext⟩, hrest⟩ := h
    obtain ⟨⟨n', hn', hprev', hnext'⟩, hrest'⟩ := h'
    intro a ha
    rcases List.mem_cons.mp ha with rfl | ha
    · rw [hn, hn', Option.map_some, Option.map_some, links, links, hprev, hnext, hprev', hnext']
    · exact ih hrest hrest' a ha

theorem sameLinks_of_has {q : Queue} {w : Pool.Queue} {l : List ℕ} (hq : q.Has l) (hw : w.Has l) :
    SameLinks q w l :=
  ⟨hq.head_eq.trans hw.head_eq.symm, hq.tail_eq.trans hw.tail_eq.symm,
    links_eq_of_segment hq.segment hw.segment⟩

/-- A call that keeps a relation between queue and sequence keeps it in a run. -/
theorem run_denotes {Q : Type} {step : Q → Op → Option Q} {Inv : Q → List ℕ → Prop}
    {alloc : ℕ → Prop} (hstep : ∀ q l op, Inv q l → op.Valid alloc l →
      ∃ q', step q op = some q' ∧ Inv q' (op.apply l))
    {q : Q} {l : List ℕ} (h : Inv q l) {ops : List Op} (hvalid : ValidRun alloc l ops) :
    ∃ q', ops.foldlM step q = some q' ∧ Inv q' (ops.foldl Op.apply l) := by
  induction ops generalizing q l with
  | nil => exact ⟨q, rfl, h⟩
  | cons op ops ih =>
    obtain ⟨q₁, hcall, h₁⟩ := hstep q l op h hvalid.1
    obtain ⟨q₂, hrun, h₂⟩ := ih h₁ hvalid.2
    refine ⟨q₂, ?_, h₂⟩
    rw [List.foldlM_cons, hcall]
    exact hrun

/-- A queue with the jobs `l`, whose data are what the memory held at first. -/
def Denotes (heap : Heap ℕ Job) (q : Queue) (l : List ℕ) : Prop :=
  q.Has l ∧ ∀ b, (q.heap b).map Node.val = (heap b).map Node.val

def PoolDenotes (workers : ℕ → Option ℕ) (w : Pool.Queue) (l : List ℕ) : Prop :=
  w.Has l ∧ ∀ b, w.workerOf b = workers b

theorem Denotes.remove {heap : Heap ℕ Job} {q : Queue} {l : List ℕ} (h : Denotes heap q l) {jp : ℕ}
    (hjp : jp ∈ l) :
    ∃ q', jobRemove q jp = some q' ∧ Denotes heap q' (l.erase jp) ∧ q'.heap jp = q.heap jp := by
  obtain ⟨pre, post, rfl, herase⟩ := exists_split hjp h.1.nodup
  obtain ⟨q', hremove, hhas, hsame, hval⟩ := jobRemove_spec h.1
  rw [herase]
  exact ⟨q', hremove, ⟨hhas, fun b => (hval b).trans (h.2 b)⟩, hsame⟩

theorem Denotes.call {heap : Heap ℕ Job} {q : Queue} {l : List ℕ} (h : Denotes heap q l) {op : Op}
    (hop : op.Valid (fun a => ∃ n, heap a = some n) l) :
    ∃ q', call q op = some q' ∧ Denotes heap q' (op.apply l) := by
  have hmemory : ∀ a, (∃ n, heap a = some n) → ∃ n, q.heap a = some n := by
    rintro a ⟨n, hn⟩
    have hval := h.2 a
    rw [hn, Option.map_some] at hval
    obtain ⟨m, hm, -⟩ := Option.map_eq_some_iff.mp hval
    exact ⟨m, hm⟩
  cases op with
  | insert jp =>
    obtain ⟨n, hn⟩ := hmemory jp hop.1
    obtain ⟨q', hcall, hhas, hval⟩ := jobInsert_spec h.1 hn hop.2
    exact ⟨q', hcall, hhas, fun b => (hval b).trans (h.2 b)⟩
  | append jp =>
    obtain ⟨n, hn⟩ := hmemory jp hop.1
    obtain ⟨q', hcall, hhas, hval⟩ := jobAppend_spec h.1 hn hop.2
    exact ⟨q', hcall, hhas, fun b => (hval b).trans (h.2 b)⟩
  | remove jp =>
    obtain ⟨q', hcall, h', -⟩ := h.remove hop
    exact ⟨q', hcall, h'⟩

/-- The links of the removed job stay as they were. -/
theorem poolRemove_same {w : Pool.Queue} {pre post : List ℕ} {jp : ℕ}
    (h : w.Has (pre ++ jp :: post)) {w' : Pool.Queue} (hremove : Pool.jobRemove w jp = some w') :
    w'.heap jp = w.heap jp := by
  obtain ⟨n, heap₁, heap₂, hn, -, -, hset₁, hn₁, hset₂, -, hframe, -⟩ :=
    h.segment.unlink_next h.nodup
  have hapart : jp ∉ pre ++ post := fun hmem =>
    (List.nodup_cons.mp (List.perm_middle.nodup_iff.mp h.nodup)).1 hmem
  simp only [Pool.jobRemove, hn, Option.bind_eq_bind, Option.bind_some, hset₁, hn₁, hset₂]
    at hremove
  obtain rfl := Option.some.inj hremove
  exact hframe jp hapart

theorem PoolDenotes.remove {workers : ℕ → Option ℕ} {w : Pool.Queue} {l : List ℕ}
    (h : PoolDenotes workers w l) {jp : ℕ} (hjp : jp ∈ l) :
    ∃ w', Pool.jobRemove w jp = some w' ∧ PoolDenotes workers w' (l.erase jp) ∧
      w'.heap jp = w.heap jp := by
  obtain ⟨pre, post, rfl, herase⟩ := exists_split hjp h.1.nodup
  obtain ⟨w', hremove, hhas, hworker⟩ := Pool.jobRemove_spec h.1
  rw [herase]
  exact ⟨w', hremove, ⟨hhas, fun b => (hworker b).trans (h.2 b)⟩, poolRemove_same h.1 hremove⟩

theorem PoolDenotes.call {heap : Heap ℕ Pool.Job} {w : Pool.Queue} {l : List ℕ}
    (h : PoolDenotes (poolQueueInit heap).workerOf w l) {op : Op}
    (hop : op.Valid (fun a => ∃ n, heap a = some n) l) :
    ∃ w', poolCall w op = some w' ∧ PoolDenotes (poolQueueInit heap).workerOf w' (op.apply l) := by
  have hmemory : ∀ a, (∃ n, heap a = some n) → ∃ n, w.heap a = some n := by
    rintro a ⟨n, hn⟩
    have hworker := h.2 a
    simp only [Pool.Queue.workerOf, poolQueueInit, hn, Option.map_some] at hworker
    obtain ⟨m, hm, -⟩ := Option.map_eq_some_iff.mp hworker
    exact ⟨m, hm⟩
  cases op with
  | insert jp =>
    obtain ⟨n, hn⟩ := hmemory jp hop.1
    obtain ⟨w', hcall, hhas, hworker⟩ := Pool.jobInsert_spec h.1 hn hop.2
    exact ⟨w', hcall, hhas, fun b => (hworker b).trans (h.2 b)⟩
  | append jp =>
    obtain ⟨n, hn⟩ := hmemory jp hop.1
    obtain ⟨w', hcall, hhas, hworker⟩ := Pool.jobAppend_spec h.1 hn hop.2
    exact ⟨w', hcall, hhas, fun b => (hworker b).trans (h.2 b)⟩
  | remove jp =>
    obtain ⟨w', hcall, h', -⟩ := h.remove hop
    exact ⟨w', hcall, h'⟩

/-- The two removals leave the same ends and the same links, those of the removed job too. -/
theorem sameLinks_remove {heap : Heap ℕ Job} {workers : ℕ → Option ℕ} {q : Queue}
    {w : Pool.Queue} {l : List ℕ} (hq : Denotes heap q l) (hw : PoolDenotes workers w l) {jp : ℕ}
    (hjp : jp ∈ l) :
    ∃ q' w', jobRemove q jp = some q' ∧ Pool.jobRemove w jp = some w' ∧
      q'.Has (l.erase jp) ∧ w'.Has (l.erase jp) ∧ SameLinks q' w' l := by
  obtain ⟨q', hremove, hq', hsame⟩ := hq.remove hjp
  obtain ⟨w', hremove', hw', hsame'⟩ := hw.remove hjp
  have hlinks := sameLinks_of_has hq'.1 hw'.1
  refine ⟨q', w', hremove, hremove', hq'.1, hw'.1, hlinks.qHead, hlinks.qTail, fun a ha => ?_⟩
  by_cases haj : a = jp
  · subst haj
    rw [hsame, hsame']
    exact (sameLinks_of_has hq.1 hw.1).links a ha
  · exact hlinks.links a ((List.mem_erase_of_ne haj).mpr ha)

theorem Denotes.find {heap : Heap ℕ Job} {q : Queue} {l : List ℕ} (h : Denotes heap q l)
    {fuel : ℕ} (hfuel : l.length < fuel) (id : ℕ) :
    jobFind 0 fuel q id =
      some (l.find? fun jp => ((heap jp).map Node.val).any fun job => job.jId == id) := by
  unfold jobFind
  rw [if_neg (not_not.mpr rfl), h.1.head_eq, findLoop_eq h.1.segment hfuel]
  simp only [h.2]

theorem PoolDenotes.find {workers : ℕ → Option ℕ} {w : Pool.Queue} {l : List ℕ}
    (h : PoolDenotes workers w l) {fuel : ℕ} (hfuel : l.length < fuel) (tid : ℕ → ℕ) (id : ℕ) :
    poolJobFind tid 0 fuel w id =
      some (l.find? fun jp => (workers jp).any fun v => tid v == id) := by
  have hany : ∀ jp, ((w.heap jp).map Node.val).any (fun job => tid job.jWorker == id) =
      (workers jp).any fun v => tid v == id := by
    intro jp
    rw [← h.2 jp]
    unfold Pool.Queue.workerOf
    cases w.heap jp with
    | none => rfl
    | some n => rfl
  unfold poolJobFind
  rw [if_neg (not_not.mpr rfl), h.1.head_eq, findLoop_eq h.1.segment hfuel]
  simp only [hany]

theorem isList_nil {V : Type} (heap : Heap ℕ V) : IsList heap none none [] :=
  ⟨rfl, rfl, trivial, List.nodup_nil⟩

/-- After the same calls the two queues denote the sequence that the calls build and have the
same ends and links, the two removals of any of their jobs leave them so, and the search for a
thread finds the first job of the sequence that the thread handles. -/
theorem queues_agree {heap : Heap ℕ Job} {pool : Heap ℕ Pool.Job} {alloc : ℕ → Prop}
    (halloc : ∀ a, alloc a → (∃ n, heap a = some n) ∧ ∃ n, pool a = some n) {ops : List Op}
    (hvalid : ValidRun alloc [] ops) :
    ∃ q w, ops.foldlM call (queueInit heap) = some q ∧
      ops.foldlM poolCall (poolQueueInit pool) = some w ∧
      q.Has (ops.foldl Op.apply []) ∧ w.Has (ops.foldl Op.apply []) ∧
      SameLinks q w (ops.foldl Op.apply []) ∧
      (∀ jp ∈ ops.foldl Op.apply [], ∃ q' w',
        jobRemove q jp = some q' ∧ Pool.jobRemove w jp = some w' ∧
          q'.Has ((ops.foldl Op.apply []).erase jp) ∧ w'.Has ((ops.foldl Op.apply []).erase jp) ∧
          SameLinks q' w' (ops.foldl Op.apply [])) ∧
      ∀ fuel, (ops.foldl Op.apply []).length < fuel →
        (∀ id, jobFind 0 fuel q id = some ((ops.foldl Op.apply []).find? fun jp =>
          ((heap jp).map Node.val).any fun job => job.jId == id)) ∧
        ∀ tid id, poolJobFind tid 0 fuel w id = some ((ops.foldl Op.apply []).find? fun jp =>
          ((poolQueueInit pool).workerOf jp).any fun v => tid v == id) := by
  have hstart : Denotes heap (queueInit heap) [] := ⟨isList_nil heap, fun _ => rfl⟩
  have hstart' : PoolDenotes (poolQueueInit pool).workerOf (poolQueueInit pool) [] :=
    ⟨isList_nil pool, fun _ => rfl⟩
  obtain ⟨q, hrun, hq⟩ := @run_denotes _ call (Denotes heap) alloc (fun _ _ _ h hop =>
    h.call (hop.mono fun a ha => (halloc a ha).1)) _ _ hstart _ hvalid
  obtain ⟨w, hrun', hw⟩ := @run_denotes _ poolCall (PoolDenotes (poolQueueInit pool).workerOf) alloc
    (fun _ _ _ h hop => h.call (hop.mono fun a ha => (halloc a ha).2)) _ _ hstart' _ hvalid
  exact ⟨q, w, hrun, hrun', hq.1, hw.1, sameLinks_of_has hq.1 hw.1,
    fun jp hjp => sameLinks_remove hq hw hjp,
    fun fuel hfuel => ⟨hq.find hfuel, hw.find hfuel⟩⟩

/-- Two jobs that are put in at both ends, with the first removed again. -/
theorem queues_agree_two :
    ∃ q w, [Op.insert 1, .append 2, .remove 1].foldlM call
        (queueInit fun _ => some ⟨none, none, ⟨7⟩⟩) = some q ∧
      [Op.insert 1, .append 2, .remove 1].foldlM poolCall
        (poolQueueInit fun _ => some ⟨none, none, ⟨5, 0⟩⟩) = some w ∧
      q.Has [2] ∧ w.Has [2] ∧ SameLinks q w [2] ∧
      (∀ jp ∈ [2], ∃ q' w', jobRemove q jp = some q' ∧ Pool.jobRemove w jp = some w' ∧
        q'.Has ([2].erase jp) ∧ w'.Has ([2].erase jp) ∧ SameLinks q' w' [2]) ∧
      ∀ fuel, 1 < fuel →
        (∀ id, jobFind 0 fuel q id = some ([2].find? fun _ => 7 == id)) ∧
        ∀ tid id, poolJobFind tid 0 fuel w id = some ([2].find? fun _ => tid 0 == id) :=
  @queues_agree (fun _ => some ⟨none, none, ⟨7⟩⟩) (fun _ => some ⟨none, none, ⟨5, 0⟩⟩)
    (fun _ => True) (fun _ _ => ⟨⟨_, rfl⟩, _, rfl⟩) [.insert 1, .append 2, .remove 1]
    ⟨⟨trivial, by decide⟩, ⟨trivial, by decide⟩, List.mem_cons_self, trivial⟩

end Apue.Rwlock
