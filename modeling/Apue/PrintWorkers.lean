import Apue.DoublyLinked
import Mathlib.Data.Int.Notation
import Mathlib.Data.List.Perm.Basic

/-!
The list of worker threads of the print daemon. Each client connection is served
by a thread that add_worker enters into the list and client_cleanup removes
again; kill_workers cancels the threads that it finds there. Every function runs
under workerlock, so one call is one step.
-/
namespace Apue.Print

open DoublyLinked

/-- The data of `struct worker_thread`; its links are those of the node. -/
structure Worker where
  tid : ℕ
  sockfd : ℤ
  deriving DecidableEq

/-- The heap, the variable `workers` and the sockets closed so far. -/
structure Pool where
  heap : Heap ℕ Worker
  workers : Option ℕ
  closed : List ℤ

def emptyPool : Pool := ⟨fun _ => none, none, []⟩

/-- `wtp` is what malloc returned. A thread without memory exits at once. -/
def addWorker (wtp : Option ℕ) (tid : ℕ) (sockfd : ℤ) (s : Pool) : Option Pool :=
  match wtp with
  | none => some s
  | some wtp =>
    let heap := Function.update s.heap wtp (some ⟨s.workers, none, ⟨tid, sockfd⟩⟩)
    match s.workers with
    | none => some { s with heap := heap, workers := some wtp }
    | some first => do
      let heap ← setPrev heap first (some wtp)
      return { s with heap := heap }

/-- The threads that kill_workers cancels. Without a result the walk has met
freed memory or has not come to its end after `fuel` nodes. -/
def killWorkers (heap : Heap ℕ Worker) : ℕ → Option ℕ → Option (List ℕ)
  | 0, _ => none
  | _ + 1, none => some []
  | fuel + 1, some wtp => do
    let n ← heap wtp
    let rest ← killWorkers heap fuel n.next
    return n.val.tid :: rest

/-- The loop of client_cleanup. -/
def findWorker (heap : Heap ℕ Worker) (tid : ℕ) : ℕ → Option ℕ → Option (Option ℕ)
  | 0, _ => none
  | _ + 1, none => some none
  | fuel + 1, some wtp => do
    let n ← heap wtp
    if n.val.tid = tid then return some wtp else findWorker heap tid fuel n.next

/-- The node that was found is taken out of the list. -/
def unlinkWorker (s : Pool) (wtp : ℕ) : Option Pool := do
  let n ← s.heap wtp
  let heap ← setPrevIf s.heap n.next n.prev
  let heap ← setNextIf heap n.prev n.next
  return { s with heap := heap, workers := if n.prev = none then n.next else s.workers }

def clientCleanup (fuel : ℕ) (tid : ℕ) (s : Pool) : Option Pool := do
  match ← findWorker s.heap tid fuel s.workers with
  | none => return s
  | some wtp => do
    let s ← unlinkWorker s wtp
    let n ← s.heap wtp
    return { s with heap := Function.update s.heap wtp none, closed := s.closed ++ [n.val.sockfd] }

inductive WorkerOp
  | add (wtp : Option ℕ) (tid : ℕ) (sockfd : ℤ)
  | cleanup (tid : ℕ)

/-- The workers added and not yet cleaned up. -/
def outstanding : List WorkerOp → List Worker :=
  List.foldl (fun ws op => match op with
    | .add (some _) tid sockfd => ⟨tid, sockfd⟩ :: ws
    | .add none _ _ => ws
    | .cleanup tid => ws.filter fun w => w.tid ≠ tid) []

/-- The calls `ops` have led to the pool `s`. Threads that run at the same time
have different IDs, and malloc returns memory that is not in use. -/
inductive WorkerRun : List WorkerOp → Pool → Prop
  | nil : WorkerRun [] emptyPool
  | add {ops s s' wtp tid sockfd} (h : WorkerRun ops s)
      (hwtp : ∀ a, wtp = some a → s.heap a = none) (htid : ∀ w ∈ outstanding ops, w.tid ≠ tid)
      (hs : addWorker wtp tid sockfd s = some s') : WorkerRun (ops ++ [.add wtp tid sockfd]) s'
  | cleanup {ops s s' fuel tid} (h : WorkerRun ops s) (hs : clientCleanup fuel tid s = some s') :
      WorkerRun (ops ++ [.cleanup tid]) s'

/-- The next links from `workers` lead through exactly the workers `ws`, each
once, and the previous links lead back. -/
def Pool.Linked (s : Pool) (ws : List Worker) : Prop :=
  ∃ l, s.workers = firstOr l none ∧ Segment s.heap none l none ∧ l.Nodup ∧
    (vals s.heap l).Perm ws

/-- The list is complete, so kill_workers cancels every outstanding worker, and
client_cleanup finds each of them, unlinks it and closes its socket. -/
structure Pool.Complete (s : Pool) (ws : List Worker) : Prop where
  linked : s.Linked ws
  kill : ∃ fuel tids, killWorkers s.heap fuel s.workers = some tids ∧
    tids.Perm (ws.map Worker.tid)
  cleanup : ∀ w ∈ ws, ∃ fuel s', clientCleanup fuel w.tid s = some s' ∧
    s'.closed = s.closed ++ [w.sockfd] ∧ s'.Linked (ws.filter fun v => v.tid ≠ w.tid)

theorem outstanding_concat (ops : List WorkerOp) (op : WorkerOp) :
    outstanding (ops ++ [op]) = match op with
      | .add (some _) tid sockfd => ⟨tid, sockfd⟩ :: outstanding ops
      | .add none _ _ => outstanding ops
      | .cleanup tid => (outstanding ops).filter fun w => w.tid ≠ tid := by
  simp only [outstanding, List.foldl_append, List.foldl_cons, List.foldl_nil]

/-- No two outstanding workers have the same thread ID. -/
theorem WorkerRun.nodup_tid {ops : List WorkerOp} {s : Pool} (h : WorkerRun ops s) :
    ((outstanding ops).map Worker.tid).Nodup := by
  induction h with
  | nil => exact List.nodup_nil
  | @add ops s s' wtp tid sockfd h _ htid hs ih =>
    rw [outstanding_concat]
    cases wtp with
    | none => exact ih
    | some a =>
      refine List.nodup_cons.mpr ⟨fun hmem => ?_, ih⟩
      obtain ⟨w, hw, he⟩ := List.mem_map.mp hmem
      exact htid w hw he
  | @cleanup ops s s' fuel tid h hs ih =>
    rw [outstanding_concat]
    exact (List.filter_sublist.map _).nodup ih

theorem killWorkers_segment {heap : Heap ℕ Worker} {p : Option ℕ} {l : List ℕ}
    (h : Segment heap p l none) :
    killWorkers heap (l.length + 1) (firstOr l none) = some ((vals heap l).map Worker.tid) := by
  induction l generalizing p with
  | nil => rfl
  | cons a l ih =>
    obtain ⟨⟨n, hn, -, hnext⟩, hrest⟩ := h
    have hvals : vals heap (a :: l) = n.val :: vals heap l := by
      rw [vals, List.filterMap_cons, hn]
      rfl
    rw [hvals, List.length_cons, firstOr, killWorkers, hn, Option.bind_eq_bind, Option.bind_some,
      hnext, ih hrest]
    rfl

/-- What the loop of client_cleanup returns, if it returns. -/
theorem findWorker_segment {heap : Heap ℕ Worker} {tid : ℕ} {p : Option ℕ} {l : List ℕ} {fuel : ℕ}
    {r : Option ℕ} (h : Segment heap p l none)
    (hr : findWorker heap tid fuel (firstOr l none) = some r) :
    (r = none ∧ ∀ w ∈ vals heap l, w.tid ≠ tid) ∨
      ∃ pre a post n, r = some a ∧ l = pre ++ a :: post ∧ heap a = some n ∧ n.val.tid = tid := by
  induction l generalizing p fuel with
  | nil =>
    cases fuel with
    | zero => cases hr
    | succ fuel =>
      left
      exact ⟨(Option.some.inj hr).symm, fun w hw => absurd hw List.not_mem_nil⟩
  | cons a l ih =>
    cases fuel with
    | zero => cases hr
    | succ fuel =>
      obtain ⟨⟨n, hn, -, hnext⟩, hrest⟩ := h
      rw [firstOr, findWorker, hn, Option.bind_eq_bind, Option.bind_some] at hr
      split at hr
      · rename_i htid
        exact Or.inr ⟨[], a, l, n, (Option.some.inj hr).symm, rfl, hn, htid⟩
      · rename_i htid
        rw [hnext] at hr
        rcases ih hrest hr with ⟨rfl, hnone⟩ | ⟨pre, b, post, m, rfl, rfl, hm⟩
        · refine Or.inl ⟨rfl, fun w hw => ?_⟩
          rw [vals, List.filterMap_cons, hn] at hw
          rcases List.mem_cons.mp hw with rfl | hw
          · exact htid
          · exact hnone w hw
        · exact Or.inr ⟨a :: pre, b, post, m, rfl, rfl, hm⟩

theorem findWorker_returns {heap : Heap ℕ Worker} (tid : ℕ) {p : Option ℕ} {l : List ℕ}
    (h : Segment heap p l none) :
    ∃ r, findWorker heap tid (l.length + 1) (firstOr l none) = some r := by
  induction l generalizing p with
  | nil => exact ⟨none, rfl⟩
  | cons a l ih =>
    obtain ⟨⟨n, hn, -, hnext⟩, hrest⟩ := h
    rw [List.length_cons, firstOr, findWorker, hn, Option.bind_eq_bind, Option.bind_some]
    split
    · exact ⟨some a, rfl⟩
    · rw [hnext]
      exact ih hrest

/-- A worker in the list is taken out of it and freed, and its socket closed. -/
theorem unlink_worker {s : Pool} {pre post : List ℕ} {a : ℕ} {n : Node ℕ Worker}
    (hfirst : s.workers = firstOr (pre ++ a :: post) none)
    (hseg : Segment s.heap none (pre ++ a :: post) none) (hnodup : (pre ++ a :: post).Nodup)
    (hn : s.heap a = some n) :
    ∃ s', unlinkWorker s a = some s' ∧ s'.heap a = some n ∧ s'.closed = s.closed ∧
      s'.workers = firstOr (pre ++ post) none ∧ Segment s'.heap none (pre ++ post) none ∧
      ∀ b, (s'.heap b).map Node.val = (s.heap b).map Node.val := by
  obtain ⟨m, heap₁, heap₂, hm, hprev, hnext, hset₁, hset₂, hseg', hframe, hval⟩ :=
    hseg.unlink hnodup
  obtain rfl : m = n := Option.some.inj (hm.symm.trans hn)
  have ha : a ∉ pre ++ post := by
    intro hmem
    obtain ⟨-, hcons, hdisj⟩ := List.nodup_append.mp hnodup
    rcases List.mem_append.mp hmem with hmem | hmem
    · exact hdisj a hmem a List.mem_cons_self rfl
    · exact (List.nodup_cons.mp hcons).1 hmem
  refine ⟨{ s with heap := heap₂, workers := if m.prev = none then m.next else s.workers },
    ?_, (hframe a ha).trans hn, rfl, ?_, hseg', hval⟩
  · simp only [unlinkWorker, hn, Option.bind_eq_bind, Option.bind_some, hset₁, hset₂,
      Option.pure_def]
  · simp only [hprev, hnext, hfirst]
    cases pre with
    | nil => exact if_pos rfl
    | cons b pre => exact if_neg (lastOr_ne_none (List.cons_ne_nil b pre) none)

/-- The list after client_cleanup, whether the worker was in it or not. -/
theorem cleanup_linked {s s' : Pool} {ws : List Worker} (hnodup : (ws.map Worker.tid).Nodup)
    {fuel tid : ℕ} (h : s.Linked ws) (hs : clientCleanup fuel tid s = some s') :
    s'.Linked (ws.filter fun v => v.tid ≠ tid) ∧
      ∀ w ∈ ws, w.tid = tid → s'.closed = s.closed ++ [w.sockfd] := by
  obtain ⟨l, hfirst, hseg, hl, hperm⟩ := h
  simp only [clientCleanup, Option.bind_eq_bind, Option.bind_eq_some_iff] at hs
  obtain ⟨r, hr, hs⟩ := hs
  rw [hfirst] at hr
  rcases findWorker_segment hseg hr with ⟨rfl, hnone⟩ | ⟨pre, a, post, n, rfl, rfl, hn, rfl⟩
  · obtain rfl := Option.some.inj hs
    have hnone' : ∀ w ∈ ws, w.tid ≠ tid := fun w hw => hnone w (hperm.mem_iff.mpr hw)
    refine ⟨⟨l, hfirst, hseg, hl, ?_⟩, fun w hw he => absurd he (hnone' w hw)⟩
    rw [List.filter_eq_self.mpr fun w hw => decide_eq_true (hnone' w hw)]
    exact hperm
  · obtain ⟨s₁, hs₁, hn₁, hclosed, hfirst₁, hseg₁, hval⟩ := unlink_worker hfirst hseg hl hn
    simp only [hs₁, Option.bind_some, hn₁, Option.pure_def, Option.some.injEq] at hs
    subst hs
    have hsub : (pre ++ post).Nodup :=
      (List.Sublist.append_left (List.sublist_cons_self a post) pre).nodup hl
    have ha : ∀ b ∈ pre ++ post, b ≠ a := by
      rintro b hb rfl
      exact (List.nodup_middle.mp hl |> List.nodup_cons.mp).1 hb
    have hvals : vals s.heap (pre ++ a :: post) = vals s.heap pre ++ n.val :: vals s.heap post := by
      rw [vals_append]
      simp only [vals, List.filterMap_cons, hn, Option.map_some]
    have hperm' : (n.val :: vals s.heap (pre ++ post)).Perm ws := by
      rw [vals_append]
      exact (List.perm_middle.symm.trans (.of_eq hvals.symm)).trans hperm
    have hothers : ∀ w ∈ vals s.heap (pre ++ post), w.tid ≠ n.val.tid := by
      have hnd := (hperm'.map Worker.tid).nodup_iff.mpr hnodup
      intro w hw he
      exact (List.nodup_cons.mp hnd).1 (he ▸ List.mem_map_of_mem hw)
    refine ⟨⟨pre ++ post, hfirst₁, segment_congr (fun b hb => ?_) hseg₁, hsub, ?_⟩, ?_⟩
    · exact Function.update_of_ne (ha b hb) _ _
    · have hrest : vals (Function.update s₁.heap a none) (pre ++ post) = vals s.heap (pre ++ post) :=
        vals_congr fun b hb => by rw [Function.update_of_ne (ha b hb), hval]
      rw [hrest]
      refine List.Perm.trans ?_ (hperm'.filter _)
      rw [List.filter_cons_of_neg (by simp), List.filter_eq_self.mpr]
      exact fun w hw => decide_eq_true (hothers w hw)
    · intro w hw he
      rcases List.mem_cons.mp (hperm'.mem_iff.mpr hw) with rfl | hw'
      · exact congrArg (· ++ _) hclosed
      · exact absurd he (hothers w hw')

/-- The rest of the claim on the list follows from its links. -/
theorem Pool.Linked.complete {s : Pool} {ws : List Worker} (h : s.Linked ws)
    (hnodup : (ws.map Worker.tid).Nodup) : s.Complete ws := by
  obtain ⟨l, hfirst, hseg, hl, hperm⟩ := id h
  refine ⟨h, ⟨_, _, hfirst ▸ killWorkers_segment hseg, hperm.map _⟩, fun w hw => ?_⟩
  obtain ⟨r, hr⟩ := findWorker_returns w.tid hseg
  have hs : ∃ s', clientCleanup (l.length + 1) w.tid s = some s' := by
    rcases findWorker_segment hseg hr with ⟨rfl, hnone⟩ | ⟨pre, a, post, n, rfl, rfl, hn, htid⟩
    · exact absurd rfl (hnone w (hperm.mem_iff.mpr hw))
    · obtain ⟨s₁, hs₁, hn₁, -⟩ := unlink_worker hfirst hseg hl hn
      simp only [clientCleanup, hfirst, hr, Option.bind_eq_bind, Option.bind_some, hs₁, hn₁]
      exact ⟨_, rfl⟩
  obtain ⟨s', hs'⟩ := hs
  obtain ⟨hlinked, hclosed⟩ := cleanup_linked hnodup h hs'
  exact ⟨_, s', hs', hclosed w hw rfl, hlinked⟩

theorem WorkerRun.exists_of_begin {ops ops' : List WorkerOp} {s : Pool} (h : WorkerRun ops s)
    (hpre : ops' <+: ops) : ∃ s', WorkerRun ops' s' := by
  induction h with
  | nil => exact ⟨emptyPool, List.prefix_nil.mp hpre ▸ .nil⟩
  | add h hwtp htid hs ih =>
    rcases List.prefix_concat_iff.mp hpre with rfl | hpre
    · exact ⟨_, .add h hwtp htid hs⟩
    · exact ih hpre
  | cleanup h hs ih =>
    rcases List.prefix_concat_iff.mp hpre with rfl | hpre
    · exact ⟨_, .cleanup h hs⟩
    · exact ih hpre

theorem WorkerRun.add_inv {ops : List WorkerOp} {wtp : Option ℕ} {tid : ℕ} {sockfd : ℤ} {s' : Pool}
    (h : WorkerRun (ops ++ [.add wtp tid sockfd]) s') :
    ∃ s, WorkerRun ops s ∧ (∀ a, wtp = some a → s.heap a = none) ∧
      addWorker wtp tid sockfd s = some s' := by
  generalize he : ops ++ [WorkerOp.add wtp tid sockfd] = ops' at h
  cases h with
  | nil => simp at he
  | @add ops₁ s _ _ _ _ h hwtp htid hs =>
    obtain ⟨rfl, hop⟩ := List.append_inj' he rfl
    cases hop
    exact ⟨s, h, hwtp, hs⟩
  | cleanup h hs =>
    obtain ⟨-, hop⟩ := List.append_inj' he rfl
    cases hop

/-- No worker is added while another one is outstanding. -/
def OneAtATime (ops : List WorkerOp) : Prop :=
  ∀ before wtp tid sockfd, before ++ [.add (some wtp) tid sockfd] <+: ops → outstanding before = []

theorem WorkerRun.linked {ops : List WorkerOp} {s : Pool} (h : WorkerRun ops s)
    (hone : OneAtATime ops) : s.Linked (outstanding ops) := by
  induction h with
  | nil => exact ⟨[], rfl, trivial, List.nodup_nil, List.Perm.nil⟩
  | @add ops s s' wtp tid sockfd h hwtp htid hs ih =>
    have hlinked := ih fun before a tid' fd hpre => hone before a tid' fd (hpre.trans ⟨_, rfl⟩)
    rw [outstanding_concat]
    cases wtp with
    | none =>
      obtain rfl := Option.some.inj hs
      exact hlinked
    | some a =>
      have hnil := hone ops a tid sockfd (List.prefix_refl _)
      obtain ⟨l, hfirst, hseg, -, hperm⟩ := hlinked
      rw [hnil] at hperm
      obtain rfl : l = [] := by
        rw [← List.length_eq_zero_iff, ← hseg.length_vals, hperm.length_eq]
        rfl
      simp only [addWorker, hfirst, firstOr, Option.some.injEq] at hs
      subst hs
      rw [hnil]
      refine ⟨[a], rfl, ⟨⟨_, Function.update_self .., rfl, rfl⟩, trivial⟩, List.nodup_singleton a, ?_⟩
      simp only [vals, List.filterMap_cons, List.filterMap_nil, Function.update_self,
        Option.map_some]
      exact List.Perm.refl _
  | @cleanup ops s s' fuel tid h hs ih =>
    have hlinked := ih fun before a tid' fd hpre => hone before a tid' fd (hpre.trans ⟨_, rfl⟩)
    rw [outstanding_concat]
    exact (cleanup_linked h.nodup_tid hlinked hs).1

/-- A worker that is added to a list with workers in it is not reached from
`workers`. -/
theorem add_not_linked {s s' : Pool} {ws ws' : List Worker} {wtp tid : ℕ} {sockfd : ℤ}
    (h : s.Linked ws) (hws : ws ≠ []) (hwtp : s.heap wtp = none)
    (hs : addWorker (some wtp) tid sockfd s = some s') (h' : s'.Linked ws') :
    ws'.length = ws.length := by
  obtain ⟨l, hfirst, hseg, -, hperm⟩ := h
  obtain ⟨l', hfirst', hseg', -, hperm'⟩ := h'
  cases l with
  | nil => exact absurd hperm.nil_eq.symm hws
  | cons a l =>
    simp only [addWorker, hfirst, firstOr, Option.bind_eq_bind, Option.bind_eq_some_iff] at hs
    obtain ⟨heap', hset, hs⟩ := hs
    obtain rfl := Option.some.inj hs
    have hnext : ∀ b ∈ a :: l, (heap' b).map Node.next = (s.heap b).map Node.next := by
      intro b hb
      obtain ⟨n, hn⟩ := hseg.alloc hb
      have hb' : b ≠ wtp := by
        rintro rfl
        cases hn.symm.trans hwtp
      rw [setPrev_next hset, Function.update_of_ne hb']
    obtain rfl := hseg.unique hseg' hfirst' hnext
    rw [← hperm'.length_eq, ← hperm.length_eq, hseg'.length_vals, hseg.length_vals]

/-- The list is complete throughout a run exactly when no worker is added while
another one is outstanding. -/
theorem workers_complete_iff {ops : List WorkerOp} {s : Pool} (h : WorkerRun ops s) :
    (∀ ops' s', ops' <+: ops → WorkerRun ops' s' → s'.Complete (outstanding ops')) ↔
      OneAtATime ops := by
  constructor
  · intro hall before wtp tid sockfd hpre
    by_contra hne
    obtain ⟨s₂, h₂⟩ := h.exists_of_begin hpre
    obtain ⟨s₁, h₁, hwtp, hs⟩ := h₂.add_inv
    have hlinked₁ := (hall before s₁ ((List.prefix_append _ _).trans hpre) h₁).linked
    have hlinked₂ := (hall _ s₂ hpre h₂).linked
    have hlen := add_not_linked hlinked₁ hne (hwtp wtp rfl) hs hlinked₂
    rw [outstanding_concat, List.length_cons] at hlen
    omega
  · intro hone ops' s' hpre hrun
    refine (hrun.linked fun before wtp tid sockfd hb => ?_).complete hrun.nodup_tid
    exact hone before wtp tid sockfd (hb.trans hpre)

/-- Two workers one after the other. -/
theorem workers_complete_alternating : ∃ s,
    WorkerRun [.add (some 0) 1 3, .cleanup 1, .add (some 0) 2 4] s ∧ s.Complete [⟨2, 4⟩] := by
  obtain ⟨s₁, hs₁⟩ : ∃ s₁, addWorker (some 0) 1 3 emptyPool = some s₁ := ⟨_, rfl⟩
  have h₁ := WorkerRun.add .nil (fun _ _ => rfl) (fun w hw => absurd hw List.not_mem_nil) hs₁
  obtain ⟨s₂, hs₂⟩ : ∃ s₂, clientCleanup 1 1 s₁ = some s₂ := by
    obtain rfl := Option.some.inj hs₁
    exact ⟨_, rfl⟩
  have h₂ := WorkerRun.cleanup h₁ hs₂
  obtain ⟨s₃, hs₃⟩ : ∃ s₃, addWorker (some 0) 2 4 s₂ = some s₃ := by
    obtain rfl := Option.some.inj hs₁
    obtain rfl := Option.some.inj hs₂
    exact ⟨_, rfl⟩
  have hfree : ∀ a, some 0 = some a → s₂.heap a = none := by
    obtain rfl := Option.some.inj hs₁
    obtain rfl := Option.some.inj hs₂
    rintro a ha
    obtain rfl := Option.some.inj ha
    rfl
  have h₃ := WorkerRun.add h₂ hfree (fun w hw => absurd hw List.not_mem_nil) hs₃
  refine ⟨s₃, h₃, (workers_complete_iff h₃).mpr ?_ _ s₃ (List.prefix_refl _) h₃⟩
  intro before wtp tid sockfd hpre
  rcases List.prefix_concat_iff.mp hpre with he | hpre
  · obtain ⟨rfl, -⟩ := List.append_inj' he rfl
    rfl
  · rcases List.prefix_concat_iff.mp hpre with he | hpre
    · obtain ⟨-, hop⟩ := List.append_inj' he rfl
      cases hop
    · rcases List.prefix_concat_iff.mp hpre with he | hpre
      · obtain ⟨rfl, -⟩ := List.append_inj' he rfl
        rfl
      · simp at hpre

/-- With two workers at a time the second is lost. -/
theorem workers_incomplete :
    ¬ ∀ ops s, WorkerRun ops s → s.Complete (outstanding ops) := by
  intro hall
  obtain ⟨s₁, hs₁⟩ : ∃ s₁, addWorker (some 0) 1 3 emptyPool = some s₁ := ⟨_, rfl⟩
  have h₁ := WorkerRun.add .nil (fun _ _ => rfl) (fun w hw => absurd hw List.not_mem_nil) hs₁
  obtain ⟨s₂, hs₂⟩ : ∃ s₂, addWorker (some 1) 2 4 s₁ = some s₂ := by
    obtain rfl := Option.some.inj hs₁
    exact ⟨_, rfl⟩
  have hfree : s₁.heap 1 = none := by
    obtain rfl := Option.some.inj hs₁
    rfl
  have h₂ := WorkerRun.add h₁ (fun a ha => Option.some.inj ha ▸ hfree) (by decide) hs₂
  have hlen := add_not_linked (hall _ s₁ h₁).linked (by decide) hfree hs₂ (hall _ s₂ h₂).linked
  exact absurd hlen (by decide)

end Apue.Print
