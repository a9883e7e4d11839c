import Apue.HerdPool
import Mathlib.Data.List.Perm.Subperm

/-!
Runs of the worker threads. Each of them is a run of the ledger: no job is lost, handed out
twice or handed to another thread, and no thread uses memory that is not there. Since every
new job is broadcast, no worker sleeps while the queue has a job of it. Where the threads
have come to rest all jobs have been handed out and their memory has been freed.
-/
namespace Apue.HerdPool

open Monitors Ownership DoublyLinked Rwlock Herd Programs

variable {pool : ℕ → Prop} {memory : ℕ} {l : List Entry} {p tid jp : ℕ} {led led' : Ledger}
  {s s' : Atomic.State ℕ Op Queue ℕ} {lbl : Label ℕ Op ℕ} {tr : List (Label ℕ Op ℕ)}

/-- The first job of a thread in the queue is the one in the ledger. -/
theorem firstJob_eq {q : Queue} (h : ∀ e ∈ l, (q.heap e.1).map Node.val = some e.2) :
    firstJob q (l.map Prod.fst) tid = (l.find? (mine tid)).map Prod.fst := by
  unfold firstJob
  induction l with
  | nil => rfl
  | cons e l ih =>
    have hrest := ih fun e' he' => h e' (List.mem_cons_of_mem _ he')
    have htest : ((q.heap e.1).map Node.val).any (equal tid) = equal tid e.2 := by
      rw [h e List.mem_cons_self]
      rfl
    by_cases hequal : equal tid e.2 = true
    · simp only [List.map_cons, List.find?_cons, htest, mine, hequal, Option.map_some]
    · simp only [List.map_cons, List.find?_cons, htest, mine, eq_false_of_ne_true hequal]
      exact hrest

theorem Placed.length_le (h : Placed pool memory l s) : (l.map Prod.fst).length ≤ memory := by
  have hsub : l.map Prod.fst ⊆ List.range memory := by
    intro b hb
    refine List.mem_range.mpr (h.below fun hnone => ?_)
    exact h.unqueued hnone hb
  have hle := (h.has.nodup.subperm hsub).length_le
  rwa [List.length_range] at hle

/-- The search is not cut off. -/
theorem Placed.find (h : Placed pool memory l s) (tid : ℕ) :
    jobFind (memory + 1) s.data tid = some ((l.find? (mine tid)).map Prod.fst) := by
  rw [jobFind_eq h.has (Nat.lt_succ_of_le h.length_le), firstJob_eq fun e he => (h.vals e he).1]

theorem Placed.node (h : Placed pool memory l s) (hp : holding (s.status p) = some jp) :
    ∃ n, s.data.heap jp = some n := Option.ne_none_iff_exists'.mp (h.owned.held hp).1

/-- What job_insert and job_append do with the job of their caller. -/
theorem Placed.links (h : Placed pool memory l s) {o : Op} {e : Entry}
    (hp : s.status p = .before o) (ho : o.job = some e) :
    ∃ q l', o.act e.1 s.data = some q ∧ q.Has (l'.map Prod.fst) ∧
      (∀ led : Ledger, led.queue = l →
        led.step (.act p o e.1) = some { led with queue := l' }) ∧
      (∀ e', e' ∈ l' ↔ e' = e ∨ e' ∈ l) ∧
      ∀ b, (q.heap b).map Node.val = (s.data.heap b).map Node.val := by
  have hhold := holding_of_job hp ho
  obtain ⟨n, hn⟩ := h.node hhold
  have hnot := (h.owned.held hhold).2
  cases o with
  | insert jp job =>
    cases ho
    obtain ⟨q, hq, hhas, hvals⟩ := jobInsert_spec h.has hn hnot
    exact ⟨q, (jp, job) :: l, hq, hhas, fun led hled => by rw [← hled]; rfl, fun _ => List.mem_cons,
      hvals⟩
  | append jp job =>
    cases ho
    obtain ⟨q, hq, hhas, hvals⟩ := jobAppend_spec h.has hn hnot
    refine ⟨q, l ++ [(jp, job)], hq, ?_, fun led hled => by rw [← hled]; rfl, fun e' => ?_, hvals⟩
    · rwa [List.map_append]
    · rw [List.mem_append, List.mem_singleton, or_comm]
  | fetch tid => cases ho

/-- What job_fetch_atomic takes is the first job of its thread. -/
theorem Placed.takes (h : Placed pool memory l s)
    (ht : jobFind (memory + 1) s.data tid = some (some jp)) :
    ∃ e pre post q, e.1 = jp ∧ l = pre ++ e :: post ∧ (l.find? (mine tid)) = some e ∧
      (l.eraseP (mine tid)) = pre ++ post ∧ jobRemove s.data jp = some q ∧
      q.Has ((pre ++ post).map Prod.fst) ∧
      ∀ b, (q.heap b).map Node.val = (s.data.heap b).map Node.val := by
  rw [h.find tid] at ht
  obtain ⟨e, he, rfl⟩ := Option.map_eq_some_iff.mp (Option.some.inj ht)
  obtain ⟨hequal, pre, post, rfl, hpre⟩ := List.find?_eq_some_iff_append.mp he
  have hhas := h.has
  rw [List.map_append, List.map_cons] at hhas
  obtain ⟨q, hq, hhas', -, hvals⟩ := jobRemove_spec hhas
  refine ⟨e, pre, post, q, rfl, rfl, he, ?_, hq, by rwa [List.map_append], hvals⟩
  rw [List.eraseP_append_right _ fun b hb => by simpa using hpre b hb]
  rw [List.eraseP_cons_of_pos hequal]

/-- What a fetch has left was there before. -/
theorem Ledger.mem_of_fetch {e : Entry} (h : led.step (.act p (.fetch tid) jp) = some led')
    (he : e ∈ led'.queue) : e ∈ led.queue := by
  rw [Ledger.step] at h
  obtain ⟨-, h⟩ := Option.ite_none_right_eq_some.mp h
  obtain ⟨e', -, h⟩ := Option.bind_eq_some_iff.mp h
  obtain ⟨-, h⟩ := Option.ite_none_right_eq_some.mp h
  obtain rfl := Option.some.inj h
  exact List.mem_of_mem_eraseP he

/-- Every step is one of the ledger. -/
theorem Placed.step (h : Placed pool memory led.queue s)
    (hstep : Atomic.Step (herd pool memory) s lbl s') :
    ∃ led', led.step lbl = some led' ∧ Placed pool memory led'.queue s' := by
  cases hstep with
  | @call p o hp ha =>
    refine ⟨led, rfl, ?_⟩
    cases o with
    | insert jp job => exact h.make (e := (jp, job)) hp rfl ha.2.1 ha.2.2.1 ha.2.2.2
    | append jp job => exact h.make (e := (jp, job)) hp rfl ha.2.1 ha.2.2.1 ha.2.2.2
    | fetch tid =>
      refine h.go (by rw [hp]; rfl) rfl fun tid' he => ?_
      cases he
      exact ha
  | @act p o a d hp ht hd =>
    cases hjob : o.job with
    | some e =>
      have hae : a = e.1 := by
        cases o with
        | insert jp job =>
          cases hjob
          exact (Option.some.inj (Option.some.inj ht)).symm
        | append jp job =>
          cases hjob
          exact (Option.some.inj (Option.some.inj ht)).symm
        | fetch tid => cases hjob
      subst hae
      obtain ⟨q, l', hq, hhas, hled, hl, hvals⟩ := h.links hp hjob
      obtain rfl := Option.some.inj (hq.symm.trans hd)
      exact ⟨_, hled led rfl, h.enqueue hp hjob hhas hl hvals⟩
    | none =>
      cases o with
      | insert jp job => cases hjob
      | append jp job => cases hjob
      | fetch tid =>
        obtain ⟨-, rfl⟩ := h.fetches hp
        obtain ⟨e, pre, post, q, rfl, hl, hfind, herase, hq, hhas, hvals⟩ := h.takes ht
        obtain rfl := Option.some.inj (hq.symm.trans hd)
        refine ⟨⟨pre ++ post, led.handed ++ [(tid, e)]⟩, ?_, h.take hl hp hhas hvals⟩
        rw [Ledger.step, if_pos rfl, Ledger.fetch, hfind, herase]
        exact if_pos rfl
  | @ret p o a d hp hd =>
    refine ⟨led, rfl, ?_⟩
    cases o with
    | insert jp job =>
      obtain rfl := Option.some.inj hd
      exact h.go (by rw [hp]; rfl) rfl fun _ he => by cases he
    | append jp job =>
      obtain rfl := Option.some.inj hd
      exact h.go (by rw [hp]; rfl) rfl fun _ he => by cases he
    | fetch tid =>
      obtain ⟨n, -, rfl⟩ := Option.map_eq_some_iff.mp hd
      exact h.free hp

theorem Placed.next (h : Placed pool memory l s)
    (hstep : Atomic.Step (herd pool memory) s lbl s') :
    ∃ led', (Ledger.mk l []).step lbl = some led' ∧ Placed pool memory led'.queue s' :=
  Placed.step h hstep

theorem proved (pool : ℕ → Prop) (memory : ℕ) :
    Proved (herd pool memory) fun s => ∃ l, Placed pool memory l s where
  step := by
    rintro s s' lbl ⟨l, h⟩ hstep
    obtain ⟨led', -, h'⟩ := h.next hstep
    exact ⟨_, h'⟩
  runs := by
    rintro s p ⟨l, h⟩ (⟨o, hp, hfault⟩ | ⟨o, a, hp, hfault⟩)
    · cases hjob : o.job with
      | some e =>
        obtain ⟨q, -, hq, -⟩ := h.links hp hjob
        cases o with
        | insert jp job =>
          cases hjob
          rcases hfault with hfault | ⟨a, ht, hfault⟩
          · cases hfault
          · cases ht
            exact absurd (hq.symm.trans hfault) (Option.some_ne_none q)
        | append jp job =>
          cases hjob
          rcases hfault with hfault | ⟨a, ht, hfault⟩
          · cases hfault
          · cases ht
            exact absurd (hq.symm.trans hfault) (Option.some_ne_none q)
        | fetch tid => cases hjob
      | none =>
        cases o with
        | insert jp job => cases hjob
        | append jp job => cases hjob
        | fetch tid =>
          rcases hfault with hfault | ⟨a, ht, hfault⟩
          · exact absurd ((h.find tid).symm.trans hfault) (Option.some_ne_none _)
          · obtain ⟨e, pre, post, q, -, -, -, -, hq, -⟩ := h.takes ht
            exact absurd (hq.symm.trans hfault) (Option.some_ne_none q)
    · cases o with
      | insert jp job => cases hfault
      | append jp job => cases hfault
      | fetch tid =>
        have hhold : holding (s.status p) = some a := by rw [hp]; rfl
        obtain ⟨n, hn⟩ := h.node hhold
        exact absurd ((congrArg (Option.map _) hn).symm.trans hfault) (Option.some_ne_none _)

/-- A worker could go on if the queue has a job of its thread. -/
theorem Placed.ready_iff (h : Placed pool memory l s) :
    Ready (herd pool memory) (.fetch tid) s.data ↔ ∃ e ∈ l, e.2.jId = tid := by
  have hequal : ∀ e : Entry, mine tid e = true ↔ e.2.jId = tid := fun e => beq_iff_eq
  constructor
  · rintro ⟨a, ha⟩
    obtain ⟨e, he, -⟩ := Option.map_eq_some_iff.mp (Option.some.inj ((h.find tid).symm.trans ha))
    exact ⟨e, List.mem_of_find?_eq_some he, (hequal e).mp (List.find?_some he)⟩
  · rintro ⟨e, he, htid⟩
    have hsome : (l.find? (mine tid)).isSome := by
      rw [List.find?_isSome]
      exact ⟨e, he, (hequal e).mpr htid⟩
    obtain ⟨e', he'⟩ := Option.isSome_iff_exists.mp hsome
    refine ⟨e'.1, (h.find tid).trans ?_⟩
    rw [he']
    rfl

/-- Every new job is broadcast, and nothing else makes the test of a worker come true. -/
theorem telling (pool : ℕ → Prop) (memory : ℕ) :
    Telling (herd pool memory) (fun s => ∃ l, Placed pool memory l s) pool where
  waits := by
    rintro s p o ⟨l, h⟩ hp ht
    cases o with
    | insert jp job => cases ht
    | append jp job => cases ht
    | fetch tid => exact (h.fetches hp).1
  tells := by
    rintro s s' p o o' a ⟨l, h⟩ hstep hready hno
    cases o with
    | insert jp job => exact .inl trivial
    | append jp job => exact .inl trivial
    | fetch tid =>
      obtain ⟨led', hled, h'⟩ := h.next hstep
      refine absurd ?_ hno
      cases o' with
      | insert jp job => exact ⟨jp, rfl⟩
      | append jp job => exact ⟨jp, rfl⟩
      | fetch tid' =>
        obtain ⟨e, he, htid⟩ := h'.ready_iff.mp hready
        exact h.ready_iff.mpr ⟨e, Ledger.mem_of_fetch hled he, htid⟩
  quiet := by
    rintro s s' lbl o ⟨l, h⟩ hstep hnot hready
    obtain ⟨led', hled, h'⟩ := h.next hstep
    cases o with
    | insert jp job => exact ⟨jp, rfl⟩
    | append jp job => exact ⟨jp, rfl⟩
    | fetch tid =>
      obtain ⟨e, he, htid⟩ := h'.ready_iff.mp hready
      refine h.ready_iff.mpr ⟨e, ?_, htid⟩
      cases hstep with
      | call hp ha =>
        obtain rfl := Option.some.inj hled
        exact he
      | @act p o a d => exact absurd rfl (hnot p o a)
      | ret hp hd =>
        obtain rfl := Option.some.inj hled
        exact he

/-- Every run is one of the ledger. -/
theorem exists_ledger {s : State ℕ Op Queue ℕ} (h : Trace (Step (herd pool memory)) start tr s) :
    ∃ led, steps Ledger.step tr ⟨[], []⟩ = some led ∧ Placed pool memory led.queue s.atomic := by
  refine h.replay (I := fun (led : Ledger) s => Placed pool memory led.queue s)
    (fun led lbl hl => ?_) Placed.step placed_start
  cases lbl with
  | spurious p => rfl
  | silent p => rfl
  | _ => cases hl

theorem submitted_append (tr tr' : List (Label ℕ Op ℕ)) :
    submitted (tr ++ tr') = submitted tr ++ submitted tr' := List.filterMap_append

theorem Ledger.accounts_step (h : led.step lbl = some led') :
    (submitted [lbl] ++ (led.handed.map Prod.snd ++ led.queue)).Perm
      (led'.handed.map Prod.snd ++ led'.queue) := by
  cases lbl with
  | act p o a =>
    cases o with
    | insert jp job =>
      cases h
      change ((jp, job) :: (led.handed.map Prod.snd ++ led.queue)).Perm
        (led.handed.map Prod.snd ++ (jp, job) :: led.queue)
      exact List.perm_middle.symm
    | append jp job =>
      cases h
      change ((jp, job) :: (led.handed.map Prod.snd ++ led.queue)).Perm
        (led.handed.map Prod.snd ++ (led.queue ++ [(jp, job)]))
      rw [← List.append_assoc]
      exact (List.perm_append_singleton ..).symm
    | fetch tid =>
      obtain ⟨-, h⟩ := Option.ite_none_right_eq_some.mp h
      obtain ⟨e, hfind, h⟩ := Option.bind_eq_some_iff.mp h
      obtain ⟨-, h⟩ := Option.ite_none_right_eq_some.mp h
      obtain rfl := Option.some.inj h
      obtain ⟨hmine, pre, post, hqueue, hpre⟩ := List.find?_eq_some_iff_append.mp hfind
      have herase : led.queue.eraseP (mine p) = pre ++ post := by
        rw [hqueue, List.eraseP_append_right _ fun b hb => by simpa using hpre b hb,
          List.eraseP_cons_of_pos hmine]
      change (led.handed.map Prod.snd ++ led.queue).Perm
        ((led.handed ++ [(p, e)]).map Prod.snd ++ led.queue.eraseP (mine p))
      rw [herase, hqueue, List.map_append, List.append_assoc]
      exact List.perm_middle.append_left _
  | call p o => cases h; exact .rfl
  | ret p o a => cases h; exact .rfl
  | spurious p => cases h; exact .rfl
  | silent p => cases h; exact .rfl

/-- What was put into the queue has been handed out or is still there. -/
theorem Ledger.accounts (h : steps Ledger.step tr led = some led') :
    (submitted tr ++ (led.handed.map Prod.snd ++ led.queue)).Perm
      (led'.handed.map Prod.snd ++ led'.queue) := by
  induction tr generalizing led with
  | nil =>
    obtain rfl := Option.some.inj h
    exact .rfl
  | cons lbl tr ih =>
    obtain ⟨led₁, hstep, h⟩ := Option.bind_eq_some_iff.mp h
    have hcons : submitted (lbl :: tr) = submitted [lbl] ++ submitted tr :=
      submitted_append [lbl] tr
    calc
      _ = submitted [lbl] ++ submitted tr ++ (led.handed.map Prod.snd ++ led.queue) := by rw [hcons]
      List.Perm _
          (submitted tr ++ (submitted [lbl] ++ (led.handed.map Prod.snd ++ led.queue))) := by
        rw [← List.append_assoc (submitted tr)]
        exact List.perm_append_comm.append_right _
      List.Perm _ (submitted tr ++ (led₁.handed.map Prod.snd ++ led₁.queue)) :=
        (Ledger.accounts_step hstep).append_left _
      List.Perm _ _ := ih h

/-- Every job was handed to its own thread. -/
theorem Ledger.own (h : steps Ledger.step tr ⟨[], []⟩ = some led) :
    ∀ x ∈ led.handed, x.2.2.jId = x.1 := by
  refine steps_induct (P := fun led => ∀ x ∈ led.handed, x.2.2.jId = x.1) ?_ h
    fun x hx => absurd hx List.not_mem_nil
  intro led lbl led' hown hstep
  cases lbl with
  | act p o a =>
    cases o with
    | insert jp job => cases hstep; exact hown
    | append jp job => cases hstep; exact hown
    | fetch tid =>
      obtain ⟨-, hstep⟩ := Option.ite_none_right_eq_some.mp hstep
      obtain ⟨e, hfind, hstep⟩ := Option.bind_eq_some_iff.mp hstep
      obtain ⟨-, hstep⟩ := Option.ite_none_right_eq_some.mp hstep
      obtain rfl := Option.some.inj hstep
      intro x hx
      rcases List.mem_append.mp hx with hx | hx
      · exact hown x hx
      · rw [List.mem_singleton.mp hx]
        have hmine : mine p e = true := List.find?_some hfind
        exact beq_iff_eq.mp hmine
  | call p o => cases hstep; exact hown
  | ret p o a => cases hstep; exact hown
  | spurious p => cases hstep; exact hown
  | silent p => cases hstep; exact hown

theorem exclusive_start : Exclusive start := .of_idle (fun _ => rfl) rfl

/-- No thread uses memory that is not there. The jobs that were put into the queue are those
that have been handed out and those that are still in it, and each was handed to the thread
it was meant for, in the order of the queue. -/
theorem jobs_conserved {s : State ℕ Op Queue ℕ} (h : Trace (Step (herd pool memory)) start tr s) :
    Exclusive s ∧ (∀ p, ¬ Faults (herd pool memory) s p) ∧
      ∃ led, steps Ledger.step tr ⟨[], []⟩ = some led ∧ s.data.Has (led.queue.map Prod.fst) ∧
        (∀ e ∈ led.queue, (s.data.heap e.1).map Node.val = some e.2) ∧
        (submitted tr).Perm (led.handed.map Prod.snd ++ led.queue) ∧
        ∀ x ∈ led.handed, x.2.2.jId = x.1 := by
  obtain ⟨led, hled, hplaced⟩ := exists_ledger h
  refine ⟨exclusive_start.trace h, (proved pool memory).no_fault ⟨_, hplaced⟩, led, hled,
    hplaced.has, fun e he => (hplaced.vals e he).1, ?_, Ledger.own hled⟩
  have haccounts := Ledger.accounts hled
  simpa only [List.map_nil, List.append_nil] using haccounts

theorem heard_trace {s : State ℕ Op Queue ℕ} (h : Trace (Step (herd pool memory)) start tr s) :
    Heard (herd pool memory) pool s :=
  Heard.trace (telling pool memory) (proved pool memory)
    (.of_idle fun _ => rfl) ⟨_, placed_start⟩ exclusive_start h

/-- A worker whose job is in the queue sleeps only while another thread is about to broadcast. -/
theorem exists_broadcast {s : State ℕ Op Queue ℕ} {led : Ledger}
    (h : Trace (Step (herd pool memory)) start tr s) (hplaced : Placed pool memory led.queue s.atomic)
    (hp : s.pc p = .blocked (.fetch p)) {e : Entry} (he : e ∈ led.queue) (hmine : e.2.jId = p) :
    ∃ q o a, s.pc q = .inside o a ∧ o.inside = .broadcast := by
  obtain ⟨q, hq⟩ := ((heard_trace h).blocked hp).2 (hplaced.ready_iff.mpr ⟨e, he, hmine⟩)
  cases hpc : s.pc q with
  | inside o a =>
    refine ⟨q, o, a, hpc, ?_⟩
    rw [hpc] at hq
    rcases hq with hq | hq
    · cases o with
      | insert jp job => rfl
      | append jp job => rfl
      | fetch tid => exact hq.elim
    · exact hq.elim
  | _ =>
    rw [hpc] at hq
    exact hq.elim

/-- The thread that is about to broadcast has put the one job into the queue whose worker still
sleeps. -/
theorem newest_job {s : State ℕ Op Queue ℕ} {led : Ledger} {q a : ℕ} {o : Op}
    (h : Trace (Step (herd pool memory)) start tr s)
    (hled : steps Ledger.step tr ⟨[], []⟩ = some led) (hp : s.pc p = .blocked (.fetch p))
    (hq : s.pc q = .inside o a) (ho : o.inside = .broadcast) {e : Entry} (he : e ∈ led.queue)
    (hmine : e.2.jId = p) : a = e.1 := by
  induction h generalizing led with
  | nil => cases hp
  | @snoc tr s s' l hrun hstep ih =>
    obtain ⟨led₁, hled₁, hplaced⟩ := exists_ledger hrun
    rw [steps_append hled₁] at hled
    obtain ⟨led₂, hlast, hled⟩ := Option.bind_eq_some_iff.mp hled
    obtain rfl := Option.some.inj hled
    have hex := exclusive_start.trace hrun
    have hone : ∀ {r t : ℕ}, (s.pc r).Holds → (s.pc t).Holds → r = t := fun hr ht =>
      Option.some.inj (((hex _).mp hr).symm.trans ((hex _).mp ht))
    by_cases hact : ∃ r o a, l = .act r o a
    · obtain ⟨r, o', a', rfl⟩ := hact
      cases hstep with
      | act hr ht hd =>
        have hactor : (s.pc r).Holds := by rw [hr]; trivial
        rcases update_cases hq with ⟨rfl, hin⟩ | ⟨hqr, hin⟩
        · cases hin
          -- before its change nobody was about to broadcast, so the worker had no job
          have hold : e ∉ led₁.queue := fun hmem => by
            have hblocked := (update_cases hp).resolve_left (fun hpq => by cases hpq.2)
            obtain ⟨t, o', a', ht, -⟩ := exists_broadcast hrun hplaced hblocked.2 hmem hmine
            have htr := hone (t := q) (by rw [ht]; trivial) hactor
            rw [htr, hr] at ht
            cases ht
          cases o with
          | insert jp job =>
            cases ht
            cases hlast
            exact (List.mem_cons.mp he).elim (fun heq => by rw [heq]) fun hmem => absurd hmem hold
          | append jp job =>
            cases ht
            cases hlast
            refine (List.mem_append.mp he).elim (fun hmem => absurd hmem hold) fun hmem => ?_
            rw [List.mem_singleton.mp hmem]
          | fetch tid => cases ho
        · exact absurd (hone (by rw [hin]; trivial) hactor) hqr
    · have hsame : led₂ = led₁ := by
        cases l with
        | act r o a => exact absurd ⟨r, o, a, rfl⟩ hact
        | _ => exact (Option.some.inj hlast).symm
      subst hsame
      have hinside := hstep.was_inside (fun r o a he => hact ⟨r, o, a, he⟩) hq
      rcases hstep.was_blocked hp with hblocked | hwait
      · exact ih hled₁ hblocked hinside he
      · have hpq : p = q := hone (by rw [hwait]; trivial) (by rw [hinside]; trivial)
        rw [← hpq, hwait] at hinside
        cases hinside

/-- No worker sleeps while the queue has a job of it, unless the thread that has put this job
there is about to broadcast. -/
theorem worker_told {s : State ℕ Op Queue ℕ} (h : Trace (Step (herd pool memory)) start tr s)
    (hp : s.pc p = .blocked (.fetch p)) {l : List ℕ} (hl : s.data.Has l) {jp : ℕ} (hjp : jp ∈ l)
    (hmine : (s.data.heap jp).map Node.val = some ⟨p⟩) :
    ∃ q o, s.pc q = .inside o jp ∧ o.inside = .broadcast := by
  obtain ⟨led, hled, hplaced⟩ := exists_ledger h
  obtain rfl : l = led.queue.map Prod.fst :=
    hplaced.has.segment.unique hl.segment (hplaced.has.head_eq.symm.trans hl.head_eq)
      fun _ _ => rfl
  obtain ⟨e, he, rfl⟩ := List.mem_map.mp hjp
  have hjob : e.2.jId = p := congrArg Job.jId
    (Option.some.inj ((hplaced.vals e he).1.symm.trans hmine))
  obtain ⟨q, o, a, hq, ho⟩ := exists_broadcast h hplaced hp he hjob
  obtain rfl := newest_job h hled hp hq ho he hjob
  exact ⟨q, o, hq, ho⟩

/-- Where the threads have come to rest, and only a new job could move them, all workers sleep,
every job has been handed to its thread, and no memory of a job is left. -/
theorem rest_means_done {s : State ℕ Op Queue ℕ} (h : Trace (Step (herd pool memory)) start tr s)
    (hrest : AtRest (herd pool memory) (fun p => ¬ pool p) s) :
    (∀ p, pool p → s.pc p = .blocked (.fetch p)) ∧ (∀ jp, s.data.heap jp = none) ∧
      ∃ led, steps Ledger.step tr ⟨[], []⟩ = some led ∧
        (submitted tr).Perm (led.handed.map Prod.snd) := by
  obtain ⟨hex, hok, led, hled, -, -, hperm, -⟩ := jobs_conserved h
  obtain ⟨led', hled', hplaced⟩ := exists_ledger h
  obtain rfl := Option.some.inj (hled.symm.trans hled')
  have hheard := heard_trace h
  have hsleeps : ∀ p, pool p → s.pc p = .blocked (.fetch p) := by
    intro p hpool
    rcases hrest.pc hex hok p with hidle | ⟨o, hblocked⟩
    · have hcall : Step (herd pool memory) s (.call p (.fetch p)) _ := .call hidle ⟨hpool, rfl⟩
      rcases hrest _ _ hcall with ⟨q, o, he, hfree⟩ | ⟨q, he⟩
      · cases he
        exact absurd hpool hfree
      · cases he
    · have hno := hheard.at_rest hrest hex hok hblocked
      cases o with
      | insert jp job => exact absurd ⟨jp, rfl⟩ hno
      | append jp job => exact absurd ⟨jp, rfl⟩ hno
      | fetch tid =>
        obtain ⟨-, rfl⟩ := hplaced.fetches (congrArg Pc.status hblocked)
        exact hblocked
  have hempty : led.queue = [] := by
    refine List.eq_nil_iff_forall_not_mem.mpr fun e he => ?_
    refine hheard.at_rest hrest hex hok (hsleeps e.2.jId (hplaced.vals e he).2) ?_
    exact hplaced.ready_iff.mpr ⟨e, he, rfl⟩
  refine ⟨hsleeps, fun jp => ?_, led, hled, ?_⟩
  · by_contra hheap
    rcases hplaced.owned.placed hheap with hmem | ⟨p, hp⟩
    · rw [hempty] at hmem
      cases hmem
    · change holding (s.pc p).status = some jp at hp
      rcases hrest.pc hex hok p with hidle | ⟨o, hblocked⟩
      · rw [hidle] at hp
        cases hp
      · cases o with
        | insert jp job => exact hheard.at_rest hrest hex hok hblocked ⟨jp, rfl⟩
        | append jp job => exact hheard.at_rest hrest hex hok hblocked ⟨jp, rfl⟩
        | fetch tid =>
          rw [hblocked] at hp
          cases hp
  · rwa [hempty, List.append_nil] at hperm

/-- The worker 1 waits and is woken by a job, takes it, frees it and waits again. -/
theorem oneJob_run : ∃ tr s, Trace (Step (herd (· = 1) 2)) start tr s ∧
    s.pc = Function.update (fun _ => .idle) 1 (.blocked (.fetch 1)) := by
  have h₀ : Trace (Step (herd (· = 1) 2)) start [] start := .nil
  have h₁ := h₀.snoc (.call (p := 1) (o := Op.fetch 1) rfl ⟨rfl, rfl⟩)
  have h₂ := h₁.snoc (.lock (p := 1) (o := Op.fetch 1) rfl rfl)
  have h₃ := h₂.snoc (.test (p := 1) (o := Op.fetch 1) rfl rfl)
  have h₄ := h₃.snoc (.wait (p := 1) (o := Op.fetch 1) rfl)
  have h₅ := h₄.snoc (.call (p := 0) (o := Op.insert 0 ⟨1⟩) rfl ⟨by decide, rfl, by decide, rfl⟩)
  have h₆ := h₅.snoc (.lock (p := 0) (o := Op.insert 0 ⟨1⟩) rfl rfl)
  have h₇ := h₆.snoc (.act (p := 0) (o := Op.insert 0 ⟨1⟩) rfl rfl rfl)
  have h₈ := h₇.snoc (.inside (p := 0) (o := Op.insert 0 ⟨1⟩) (a := 0) rfl .all)
  have h₉ := h₈.snoc (.unlock (p := 0) (o := Op.insert 0 ⟨1⟩) (a := 0) rfl)
  have h₁₀ := h₉.snoc (.outside (p := 0) (o := Op.insert 0 ⟨1⟩) (a := 0) rfl .nothing)
  have h₁₁ := h₁₀.snoc (.ret (p := 0) (o := Op.insert 0 ⟨1⟩) (a := 0) rfl rfl)
  have h₁₂ := h₁₁.snoc (.relock (p := 1) (o := Op.fetch 1) rfl rfl)
  have h₁₃ := h₁₂.snoc (.act (p := 1) (o := Op.fetch 1) (a := 0) rfl rfl rfl)
  have h₁₄ := h₁₃.snoc (.inside (p := 1) (o := Op.fetch 1) (a := 0) rfl .nothing)
  have h₁₅ := h₁₄.snoc (.unlock (p := 1) (o := Op.fetch 1) (a := 0) rfl)
  have h₁₆ := h₁₅.snoc (.outside (p := 1) (o := Op.fetch 1) (a := 0) rfl .nothing)
  have h₁₇ := h₁₆.snoc (.ret (p := 1) (o := Op.fetch 1) (a := 0) rfl rfl)
  have h₁₈ := h₁₇.snoc (.call (p := 1) (o := Op.fetch 1) rfl ⟨rfl, rfl⟩)
  have h₁₉ := h₁₈.snoc (.lock (p := 1) (o := Op.fetch 1) rfl rfl)
  have h₂₀ := h₁₉.snoc (.test (p := 1) (o := Op.fetch 1) rfl rfl)
  have h₂₁ := h₂₀.snoc (.wait (p := 1) (o := Op.fetch 1) rfl)
  refine ⟨_, _, h₂₁, funext fun q => ?_⟩
  rcases q with _ | _ | q
  · rfl
  · rfl
  · rfl

theorem jobs_conserved_one : ∃ tr s, Trace (Step (herd (· = 1) 2)) start tr s ∧
    Exclusive s ∧ (∀ p, ¬ Faults (herd (· = 1) 2) s p) ∧
      ∃ led, steps Ledger.step tr ⟨[], []⟩ = some led ∧ s.data.Has (led.queue.map Prod.fst) ∧
        (∀ e ∈ led.queue, (s.data.heap e.1).map Node.val = some e.2) ∧
        (submitted tr).Perm (led.handed.map Prod.snd ++ led.queue) ∧
        ∀ x ∈ led.handed, x.2.2.jId = x.1 := by
  obtain ⟨tr, s, h, -⟩ := oneJob_run
  exact ⟨tr, s, h, jobs_conserved h⟩

theorem rest_means_done_one : ∃ tr s, Trace (Step (herd (· = 1) 2)) start tr s ∧
    (∀ p, p = 1 → s.pc p = .blocked (.fetch p)) ∧ (∀ jp, s.data.heap jp = none) ∧
      ∃ led, steps Ledger.step tr ⟨[], []⟩ = some led ∧
        (submitted tr).Perm (led.handed.map Prod.snd) := by
  obtain ⟨tr, s, h, hpc⟩ := oneJob_run
  refine ⟨tr, s, h, rest_means_done h (AtRest.of_pc fun p => ?_)⟩
  rw [hpc]
  by_cases hp : p = 1
  · subst hp
    exact .inr ⟨_, Function.update_self ..⟩
  · exact .inl ⟨Function.update_of_ne hp _ _, hp⟩

/-- The job of the worker that waits is in the queue, and has not been broadcast yet. -/
theorem worker_told_one : ∃ tr s, Trace (Step (herd (· = 1) 2)) start tr s ∧
    s.pc 1 = .blocked (.fetch 1) ∧ ∃ q o, s.pc q = .inside o 0 ∧ o.inside = .broadcast := by
  have h₀ : Trace (Step (herd (· = 1) 2)) start [] start := .nil
  have h₁ := h₀.snoc (.call (p := 1) (o := Op.fetch 1) rfl ⟨rfl, rfl⟩)
  have h₂ := h₁.snoc (.lock (p := 1) (o := Op.fetch 1) rfl rfl)
  have h₃ := h₂.snoc (.test (p := 1) (o := Op.fetch 1) rfl rfl)
  have h₄ := h₃.snoc (.wait (p := 1) (o := Op.fetch 1) rfl)
  have h₅ := h₄.snoc (.call (p := 0) (o := Op.insert 0 ⟨1⟩) rfl ⟨by decide, rfl, by decide, rfl⟩)
  have h₆ := h₅.snoc (.lock (p := 0) (o := Op.insert 0 ⟨1⟩) rfl rfl)
  have h₇ := h₆.snoc (.act (p := 0) (o := Op.insert 0 ⟨1⟩) rfl rfl rfl)
  exact ⟨_, _, h₇, rfl, worker_told h₇ rfl (l := [0])
    ⟨rfl, rfl, ⟨⟨_, rfl, rfl, rfl⟩, trivial⟩, List.nodup_singleton 0⟩ List.mem_cons_self rfl⟩

end Apue.HerdPool
