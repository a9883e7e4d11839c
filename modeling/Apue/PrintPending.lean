import Apue.MonitorWakeups
import Apue.Ownership
import Apue.PrintQueue

/-!
The print queue under joblock, call by call. Any number of threads run add_job, which signals
jobwait after it has unlocked; the printer thread takes the first job, waiting while there is
none, and frees it or puts it back with replace_job. The printer thread is the only one that
waits, so the signal cannot wake a thread that has no use for it.
-/
namespace Apue.Print.Pending

open Monitors Ownership DoublyLinked

/-- The queue, and the job that the printer thread has picked up and not yet dealt with. -/
structure Jobs where
  queue : Queue
  jp : Option ℕ

/-- What a thread does to the queue. The printer thread is `done` with a job that it has
printed or canceled, and defers another one. -/
inductive Op
  | add (jp : ℕ) (job : Job)
  | take (done : Bool)
  | replace (jp : ℕ)

/-- malloc returns memory that nobody has; the printer thread has at most one job. -/
def Op.allowed {P : Type} (printer p : P) : Op → Jobs → Prop
  | .add jp _, d => p ≠ printer ∧ d.queue.heap jp = none
  | .take _, d => p = printer ∧ d.jp = none
  | .replace jp, d => p = printer ∧ d.jp = some jp

def Op.enter : Op → Jobs → Jobs
  | .add jp job, d => { d with queue := newJob d.queue jp job }
  | _, d => d

/-- The printer thread waits while jobhead is NULL. -/
def Op.test : Op → Jobs → Option (Option ℕ)
  | .add jp _, _ => some (some jp)
  | .take _, d => some d.queue.jobhead
  | .replace jp, _ => some (some jp)

def Op.act : Op → ℕ → Jobs → Option Jobs
  | .add _ _, jp, d => (addJob d.queue jp).map fun q => { d with queue := q }
  | .take _, jp, d => (removeJob d.queue jp).map fun q => ⟨q, some jp⟩
  | .replace _, jp, d => (replaceJob d.queue jp).map fun q => ⟨q, none⟩

def Op.outside : Op → Notify
  | .add _ _ => .signal
  | _ => .nothing

def Op.exit : Op → ℕ → Jobs → Option Jobs
  | .take true, jp, d => (d.queue.heap jp).map fun _ => ⟨freeJob d.queue jp, none⟩
  | _, _, d => some d

def spool {P : Type} (printer : P) : Monitor P Op Jobs ℕ where
  allowed := Op.allowed printer
  enter := Op.enter
  test := Op.test
  act := Op.act
  inside _ := .nothing
  outside := Op.outside
  exit := Op.exit

def start (P : Type) : State P Op Jobs ℕ :=
  ⟨⟨⟨fun _ => none, none, none⟩, none⟩, none, fun _ => .idle⟩

/-- The operations of the printer thread. -/
def Op.Prints : Op → Prop
  | .add _ _ => False
  | _ => True

/-- The job that a thread other than the printer thread has allocated and not yet linked. -/
def making : Atomic.Status Op ℕ → Option ℕ
  | .before (.add jp _) => some jp
  | _ => none

section Threads

variable {P : Type} [DecidableEq P]

/-- Who has which job that is not in the queue. -/
def holding (printer : P) (s : Atomic.State P Op Jobs ℕ) : P → Option ℕ :=
  Function.update (fun p => making (s.status p)) printer s.data.jp

/-- What the printer thread has picked up at each place of its loop. -/
def PickedUp : Atomic.Status Op ℕ → Option ℕ → Prop
  | .before (.take _), jp => jp = none
  | .before (.replace a), jp => jp = some a
  | .after (.take _) a, jp => jp = some a
  | _, _ => True

/-- Every job is in one place: in the queue, or in the hands of one thread. -/
structure Placed (printer : P) (l : List ℕ) (s : Atomic.State P Op Jobs ℕ) : Prop where
  has : s.data.queue.Has l
  owned : Owned (fun jp => s.data.queue.heap jp ≠ none) l (holding printer s)
  fresh : ∀ {p : P} {jp : ℕ} {job : Job}, s.status p = .before (.add jp job) →
    ∃ n, s.data.queue.heap jp = some n ∧ n.next = none
  before : ∀ {p : P} {o : Op}, s.status p = .before o → (p = printer ↔ o.Prints)
  after : ∀ {p : P} {o : Op} {a : ℕ}, s.status p = .after o a → (p = printer ↔ o.Prints)
  picked : PickedUp (s.status printer) s.data.jp

variable {printer p r : P} {l l' : List ℕ} {a jp : ℕ} {job : Job} {b : Bool} {q : Queue}
  {d : Option ℕ} {x : Atomic.Status Op ℕ} {s s' : Atomic.State P Op Jobs ℕ}
  {lbl : Label P Op ℕ} {tr : List (Label P Op ℕ)}

omit [DecidableEq P] in
theorem has_unique (h : q.Has l) (h' : q.Has l') : l = l' :=
  h'.segment.unique h.segment (h'.head_eq.symm.trans h.head_eq) fun _ _ => rfl

theorem holding_self : holding printer s printer = s.data.jp := Function.update_self ..

theorem holding_of_ne (hp : p ≠ printer) : holding printer s p = making (s.status p) :=
  Function.update_of_ne hp ..

theorem holding_printer : holding printer ⟨⟨q, d⟩, Function.update s.status printer x⟩ =
    Function.update (holding printer s) printer d := by
  funext r
  by_cases hr : r = printer
  · subst hr
    rw [holding_self, Function.update_self]
  · rw [holding_of_ne hr, Function.update_of_ne hr, holding_of_ne hr]
    exact congrArg making (Function.update_of_ne hr _ _)

theorem holding_other (hp : p ≠ printer) :
    holding printer ⟨⟨q, s.data.jp⟩, Function.update s.status p x⟩ =
      Function.update (holding printer s) p (making x) := by
  funext r
  by_cases hr : r = printer
  · subst hr
    rw [holding_self, Function.update_of_ne hp.symm, holding_self]
  · rw [holding_of_ne hr]
    by_cases hrp : r = p
    · subst hrp
      rw [Function.update_self]
      exact congrArg making (Function.update_self ..)
    · rw [Function.update_of_ne hrp, holding_of_ne hr]
      exact congrArg making (Function.update_of_ne hrp _ _)

theorem placed_start : Placed printer [] (start P).atomic where
  has := ⟨rfl, rfl, trivial, List.nodup_nil⟩
  owned := by
    refine .empty (fun _ h => h rfl) fun r => ?_
    by_cases hr : r = printer
    · subst hr
      exact holding_self
    · exact holding_of_ne hr
  fresh h := by cases h
  before h := by cases h
  after h := by cases h
  picked := trivial

/-- A thread with a new job is not the printer thread, and the job is in its hands. -/
theorem Placed.makes (h : Placed printer l s) (hr : s.status r = .before (.add a job)) :
    r ≠ printer ∧ holding printer s r = some a := by
  have hne : r ≠ printer := fun he => (h.before hr).mp he
  rw [holding_of_ne hne, hr]
  exact ⟨hne, rfl⟩

/-- A thread has gone to `x`, and the new jobs of the others are as they were. -/
theorem Placed.moved (h : Placed printer l s) (hhas : q.Has l')
    (howned : Owned (fun a => q.heap a ≠ none) l'
      (holding printer ⟨⟨q, d⟩, Function.update s.status p x⟩))
    (hfresh : ∀ r a, r ≠ p → holding printer s r = some a → q.heap a = s.data.queue.heap a)
    (hx : ∀ a job, x = .before (.add a job) → ∃ n, q.heap a = some n ∧ n.next = none)
    (hown : ∀ o, (x = .before o ∨ ∃ a, x = .after o a) → (p = printer ↔ o.Prints))
    (hpicked : PickedUp (Function.update s.status p x printer) d) :
    Placed printer l' ⟨⟨q, d⟩, Function.update s.status p x⟩ := by
  refine ⟨hhas, howned, fun hr => ?_, fun hr => ?_, fun hr => ?_, hpicked⟩
  · rcases update_cases hr with ⟨-, he⟩ | ⟨hne, hr⟩
    · exact hx _ _ he
    · obtain ⟨n, hn, hnext⟩ := h.fresh hr
      exact ⟨n, (hfresh _ _ hne (h.makes hr).2).trans hn, hnext⟩
  · rcases update_cases hr with ⟨rfl, he⟩ | ⟨-, hr⟩
    · exact hown _ (.inl he)
    · exact h.before hr
  · rcases update_cases hr with ⟨rfl, he⟩ | ⟨-, hr⟩
    · exact hown _ (.inr ⟨_, he⟩)
    · exact h.after hr

/-- Only the links of the queue and of the job in the hands of `p` have changed. -/
theorem Placed.relinked (h : Placed printer l s) (hhas : q.Has l')
    (hframe : ∀ c, c ∉ l → holding printer s p ≠ some c → q.heap c = s.data.queue.heap c)
    (hvals : ∀ c, (q.heap c).map Node.val = (s.data.queue.heap c).map Node.val)
    (howned : Owned (fun a => s.data.queue.heap a ≠ none) l'
      (holding printer ⟨⟨q, d⟩, Function.update s.status p x⟩))
    (hx : ∀ o, x ≠ .before o) (hown : ∀ o a, x = .after o a → (p = printer ↔ o.Prints))
    (hpicked : PickedUp (Function.update s.status p x printer) d) :
    Placed printer l' ⟨⟨q, d⟩, Function.update s.status p x⟩ := by
  refine h.moved hhas (howned.congr (fun c => ?_) (fun _ => Iff.rfl) fun _ => rfl)
    (fun r c hr hc => ?_) (fun a job he => absurd he (hx _)) (fun o ho => ?_) hpicked
  · rw [ne_eq, ne_eq, ← Option.map_eq_none_iff (f := Node.val), hvals, Option.map_eq_none_iff]
  · exact hframe c (h.owned.held hc).2 fun hpc => hr (h.owned.apart hc hpc)
  · rcases ho with ho | ⟨a, ho⟩
    · exact absurd ho (hx o)
    · exact hown o a ho

/-- A thread goes on, and what it has stays the same. -/
theorem Placed.go (h : Placed printer l s) (hsame : making x = making (s.status p))
    (hx : ∀ a job, x ≠ .before (.add a job))
    (hown : ∀ o, (x = .before o ∨ ∃ a, x = .after o a) → (p = printer ↔ o.Prints))
    (hpicked : p = printer → PickedUp x s.data.jp) :
    Placed printer l ⟨s.data, Function.update s.status p x⟩ := by
  have hhold : holding printer ⟨s.data, Function.update s.status p x⟩ = holding printer s := by
    by_cases hp : p = printer
    · subst hp
      refine holding_printer.trans ?_
      rw [← holding_self, Function.update_eq_self]
    · refine (holding_other hp).trans ?_
      rw [hsame, ← holding_of_ne hp, Function.update_eq_self]
  refine h.moved h.has (h.owned.congr (fun _ => Iff.rfl) (fun _ => Iff.rfl) (congrFun hhold))
    (fun _ _ _ _ => rfl) (fun a job he => absurd he (hx a job)) hown ?_
  by_cases hp : p = printer
  · subst hp
    rw [Function.update_self]
    exact hpicked rfl
  · rw [Function.update_of_ne fun he => hp he.symm]
    exact h.picked

/-- add_job has allocated a job. -/
theorem Placed.make (h : Placed printer l s) (hp : s.status p = .idle) (hne : p ≠ printer)
    (hjp : s.data.queue.heap jp = none) :
    Placed printer l ⟨(Op.add jp job).enter s.data,
      Function.update s.status p (.before (.add jp job))⟩ := by
  have hheap : (newJob s.data.queue jp job).heap jp = some ⟨none, none, job⟩ :=
    Function.update_self ..
  have hother : ∀ c, c ≠ jp → (newJob s.data.queue jp job).heap c = s.data.queue.heap c :=
    fun c hc => Function.update_of_ne hc _ _
  have hempty : holding printer s p = none := by
    rw [holding_of_ne hne, hp]
    rfl
  refine h.moved (h.has.congr rfl rfl fun c hc => hother c ?_) ?_ (fun r c _ hc => hother c ?_)
    (fun a job' he => ?_) (fun o ho => ?_) ?_
  · rintro rfl
    exact h.owned.queued hc hjp
  · refine (h.owned.make hempty (not_not.mpr hjp) fun c => ?_).congr (fun _ => Iff.rfl)
      (fun _ => Iff.rfl) (congrFun (holding_other hne))
    by_cases hc : c = jp
    · rw [hc, hheap]
      exact iff_of_true (Option.some_ne_none _) (.inl rfl)
    · rw [hother c hc, or_iff_right hc]
  · rintro rfl
    exact (h.owned.held hc).1 hjp
  · cases he
    exact ⟨_, hheap, rfl⟩
  · rcases ho with ho | ⟨a, ho⟩
    · cases ho
      exact iff_of_false hne id
    · cases ho
  · rw [Function.update_of_ne hne.symm]
    exact h.picked

/-- add_job appends the job. -/
theorem Placed.add (h : Placed printer l s) (hp : s.status p = .before (.add jp job)) :
    ∃ q, addJob s.data.queue jp = some q ∧ Placed printer (l ++ [jp])
      ⟨⟨q, s.data.jp⟩, Function.update s.status p (.after (.add jp job) a)⟩ := by
  obtain ⟨hne, hhold⟩ := h.makes hp
  obtain ⟨n, hn, hnext⟩ := h.fresh hp
  obtain ⟨q, hq, hhas, hframe, hvals⟩ := addJob_spec h.has hn hnext (h.owned.held hhold).2
  refine ⟨q, hq, h.relinked hhas (fun c hc hpc => hframe c hc fun he => hpc (he ▸ hhold)) hvals ?_
    (fun o he => by cases he) (fun o a he => ?_) ?_⟩
  · refine (h.owned.put hhold fun c => ?_).congr (fun _ => Iff.rfl) (fun _ => Iff.rfl)
      (congrFun (holding_other hne))
    rw [List.mem_append, List.mem_singleton, or_comm]
  · cases he
    exact iff_of_false hne id
  · rw [Function.update_of_ne hne.symm]
    exact h.picked

/-- The printer thread takes the first job out of the queue. -/
theorem Placed.take (h : Placed printer (jp :: l) s) (hp : s.status printer = .before (.take b)) :
    ∃ q, removeJob s.data.queue jp = some q ∧ Placed printer l
      ⟨⟨q, some jp⟩, Function.update s.status printer (.after (.take b) jp)⟩ := by
  have hnot := (List.nodup_cons.mp h.has.nodup).1
  have hempty : holding printer s printer = none := by
    have hpicked := h.picked
    rw [hp] at hpicked
    exact holding_self.trans hpicked
  have hfirst : s.data.queue.Has ([] ++ jp :: l) := h.has
  obtain ⟨q, hq, hhas, hframe, hvals⟩ := removeJob_spec hfirst
  refine ⟨q, hq, h.relinked hhas (fun c hc _ => hframe c fun hin => ?_) hvals ?_
    (fun o he => by cases he) (fun o a he => ?_) ?_⟩
  · exact hc (List.mem_cons_of_mem _ hin)
  · refine (h.owned.take hempty List.mem_cons_self fun c => ?_).congr (fun _ => Iff.rfl)
      (fun _ => Iff.rfl) (congrFun holding_printer)
    constructor
    · exact fun hc => ⟨List.mem_cons_of_mem _ hc, fun he => hnot (he ▸ hc)⟩
    · exact fun hc => (List.mem_cons.mp hc.1).resolve_left hc.2
  · cases he
    exact iff_of_true rfl trivial
  · rw [Function.update_self]
    rfl

/-- The printer thread puts the job that it has back in front. -/
theorem Placed.replace (h : Placed printer l s) (hp : s.status printer = .before (.replace jp)) :
    ∃ q, replaceJob s.data.queue jp = some q ∧ Placed printer (jp :: l)
      ⟨⟨q, none⟩, Function.update s.status printer (.after (.replace jp) a)⟩ := by
  have hhold : holding printer s printer = some jp := by
    have hpicked := h.picked
    rw [hp] at hpicked
    exact holding_self.trans hpicked
  obtain ⟨n, hn⟩ := Option.ne_none_iff_exists'.mp (h.owned.held hhold).1
  obtain ⟨q, hq, hhas, hframe, hvals⟩ := replaceJob_spec h.has hn (h.owned.held hhold).2
  refine ⟨q, hq, h.relinked hhas (fun c hc hpc => hframe c hc fun he => hpc (he ▸ hhold)) hvals ?_
    (fun o he => by cases he) (fun o a he => ?_) ?_⟩
  · exact (h.owned.put hhold fun c => List.mem_cons).congr (fun _ => Iff.rfl) (fun _ => Iff.rfl)
      (congrFun holding_printer)
  · cases he
    exact iff_of_true rfl trivial
  · rw [Function.update_self]
    trivial

/-- The printer thread frees the job that it has. -/
theorem Placed.free (h : Placed printer l s) (hp : s.status printer = .after (.take true) jp) :
    (∃ n, s.data.queue.heap jp = some n) ∧ Placed printer l
      ⟨⟨freeJob s.data.queue jp, none⟩, Function.update s.status printer .idle⟩ := by
  have hhold : holding printer s printer = some jp := by
    have hpicked := h.picked
    rw [hp] at hpicked
    exact holding_self.trans hpicked
  obtain ⟨hjp, hnot⟩ := h.owned.held hhold
  have hother : ∀ c, c ≠ jp → (freeJob s.data.queue jp).heap c = s.data.queue.heap c :=
    fun c hc => Function.update_of_ne hc _ _
  refine ⟨Option.ne_none_iff_exists'.mp hjp, h.moved (h.has.congr rfl rfl fun c hc => hother c ?_)
    ?_ (fun r c hr hc => hother c ?_) (fun a job' he => by cases he) (fun o ho => ?_) ?_⟩
  · rintro rfl
    exact hnot hc
  · refine (h.owned.free hhold fun c => ?_).congr (fun _ => Iff.rfl) (fun _ => Iff.rfl)
      (congrFun holding_printer)
    by_cases hc : c = jp
    · rw [hc]
      have hnone : (freeJob s.data.queue jp).heap jp = none := Function.update_self ..
      exact iff_of_false (fun hsome => hsome hnone) fun hboth => hboth.2 rfl
    · rw [hother c hc, and_iff_left hc]
  · rintro rfl
    exact hr (h.owned.apart hc hhold)
  · rcases ho with ho | ⟨a, ho⟩ <;> cases ho
  · rw [Function.update_self]
    trivial

/-- What a step does to the queue. -/
def Moves (l l' : List ℕ) : Label P Op ℕ → Prop
  | .act _ (.add _ _) jp => l' = l ++ [jp]
  | .act _ (.take _) jp => l = jp :: l'
  | .act _ (.replace _) jp => l' = jp :: l
  | _ => l' = l

theorem Placed.step (h : Placed printer l s) (hstep : Atomic.Step (spool printer) s lbl s') :
    ∃ l', Moves l l' lbl ∧ Placed printer l' s' := by
  cases hstep with
  | @call p o hp ha =>
    refine ⟨l, rfl, ?_⟩
    have hgo : o.Prints → p = printer → PickedUp (.before o) s.data.jp →
        Placed printer l ⟨s.data, Function.update s.status p (.before o)⟩ := by
      intro hprints hpr hpicked
      refine h.go ?_ (fun a job he => ?_) (fun o' ho' => ?_) fun _ => hpicked
      · rw [hp]
        cases o with
        | add jp job => exact hprints.elim
        | take b => rfl
        | replace jp => rfl
      · cases he
        exact hprints.elim
      · rcases ho' with ho' | ⟨a, ho'⟩
        · cases ho'
          exact iff_of_true hpr hprints
        · cases ho'
    cases o with
    | add jp job => exact h.make hp ha.1 ha.2
    | take b => exact hgo trivial ha.1 ha.2
    | replace jp => exact hgo trivial ha.1 ha.2
  | @act p o a d hp ht hd =>
    cases o with
    | add jp job =>
      obtain rfl := Option.some.inj (Option.some.inj ht)
      obtain ⟨q, hq, h'⟩ := h.add (a := jp) hp
      obtain ⟨q', hq', rfl⟩ := Option.map_eq_some_iff.mp hd
      obtain rfl := Option.some.inj (hq.symm.trans hq')
      exact ⟨_, rfl, h'⟩
    | take b =>
      obtain rfl := (h.before hp).mpr trivial
      have hhead : s.data.queue.jobhead = some a := Option.some.inj ht
      cases l with
      | nil => exact absurd (hhead.symm.trans h.has.head_eq) (Option.some_ne_none a)
      | cons jp l =>
        obtain rfl := Option.some.inj (hhead.symm.trans h.has.head_eq)
        obtain ⟨q, hq, h'⟩ := h.take hp
        obtain ⟨q', hq', rfl⟩ := Option.map_eq_some_iff.mp hd
        obtain rfl := Option.some.inj (hq.symm.trans hq')
        exact ⟨l, rfl, h'⟩
    | replace jp =>
      obtain rfl := (h.before hp).mpr trivial
      obtain rfl := Option.some.inj (Option.some.inj ht)
      obtain ⟨q, hq, h'⟩ := h.replace (a := jp) hp
      obtain ⟨q', hq', rfl⟩ := Option.map_eq_some_iff.mp hd
      obtain rfl := Option.some.inj (hq.symm.trans hq')
      exact ⟨_, rfl, h'⟩
  | @ret p o a d hp hd =>
    refine ⟨l, rfl, ?_⟩
    have hgo : d = s.data → Placed printer l ⟨d, Function.update s.status p .idle⟩ := by
      rintro rfl
      refine h.go ?_ (fun a job he => by cases he) (fun o' ho' => ?_) fun _ => trivial
      · rw [hp]
        rfl
      · rcases ho' with ho' | ⟨a, ho'⟩ <;> cases ho'
    cases o with
    | add jp job => exact hgo (Option.some.inj hd).symm
    | replace jp => exact hgo (Option.some.inj hd).symm
    | take b =>
      cases b with
      | false => exact hgo (Option.some.inj hd).symm
      | true =>
        obtain rfl := (h.after hp).mpr trivial
        obtain ⟨n, -, rfl⟩ := Option.map_eq_some_iff.mp hd
        exact (h.free hp).2

theorem proved (printer : P) : Proved (spool printer) fun s => ∃ l, Placed printer l s where
  step := by
    rintro s s' lbl ⟨l, h⟩ hstep
    obtain ⟨l', -, h'⟩ := h.step hstep
    exact ⟨l', h'⟩
  runs := by
    rintro s p ⟨l, h⟩ (⟨o, hp, hfault⟩ | ⟨o, a, hp, hfault⟩)
    · cases o with
      | add jp job =>
        rcases hfault with hfault | ⟨a, ht, hfault⟩
        · cases hfault
        · obtain rfl := Option.some.inj (Option.some.inj ht)
          obtain ⟨q, hq, -⟩ := h.add (a := jp) hp
          exact absurd (hq.symm.trans (Option.map_eq_none_iff.mp hfault)) (Option.some_ne_none q)
      | take b =>
        obtain rfl := (h.before hp).mpr trivial
        rcases hfault with hfault | ⟨a, ht, hfault⟩
        · cases hfault
        · have hhead : s.data.queue.jobhead = some a := Option.some.inj ht
          cases l with
          | nil => exact absurd (hhead.symm.trans h.has.head_eq) (Option.some_ne_none a)
          | cons jp l =>
            obtain rfl := Option.some.inj (hhead.symm.trans h.has.head_eq)
            obtain ⟨q, hq, -⟩ := h.take hp
            exact absurd (hq.symm.trans (Option.map_eq_none_iff.mp hfault)) (Option.some_ne_none q)
      | replace jp =>
        obtain rfl := (h.before hp).mpr trivial
        rcases hfault with hfault | ⟨a, ht, hfault⟩
        · cases hfault
        · obtain rfl := Option.some.inj (Option.some.inj ht)
          obtain ⟨q, hq, -⟩ := h.replace (a := jp) hp
          exact absurd (hq.symm.trans (Option.map_eq_none_iff.mp hfault)) (Option.some_ne_none q)
    · cases o with
      | add jp job => cases hfault
      | replace jp => cases hfault
      | take b =>
        cases b with
        | false => cases hfault
        | true =>
          obtain rfl := (h.after hp).mpr trivial
          obtain ⟨⟨n, hn⟩, -⟩ := h.free hp
          exact absurd (hn.symm.trans (Option.map_eq_none_iff.mp hfault)) (Option.some_ne_none n)

/-- The printer thread could go on if there is a job. -/
theorem Placed.ready_iff (h : Placed printer l s) :
    Ready (spool printer) (.take b) s.data ↔ l ≠ [] := by
  have hhead := h.has.head_eq
  constructor
  · rintro ⟨a, ha⟩ rfl
    exact absurd ((Option.some.inj ha).symm.trans hhead) (Option.some_ne_none a)
  · intro hl
    obtain ⟨jp, l', rfl⟩ := List.exists_cons_of_ne_nil hl
    exact ⟨jp, congrArg some hhead⟩

/-- Every new job is signalled. The printer thread itself puts jobs back without a signal, but
then nobody waits for one. -/
theorem telling (printer : P) :
    Telling (spool printer) (fun s => ∃ l, Placed printer l s) (· = printer) where
  waits := by
    rintro s p o ⟨l, h⟩ hp ht
    cases o with
    | add jp job => cases ht
    | take b => exact (h.before hp).mpr trivial
    | replace jp => cases ht
  tells := by
    rintro s s' p o o' a ⟨l, h⟩ hstep hready hno
    have hbefore : s.status p = .before o := by
      cases hstep with
      | act hp ht hd => exact hp
    cases o with
    | add jp job => exact .inr (.inl fun q r hq hr => hq.trans hr.symm)
    | take b =>
      have hp := (h.before hbefore).mpr trivial
      exact .inr (.inr fun q hq => hq.trans hp.symm)
    | replace jp =>
      have hp := (h.before hbefore).mpr trivial
      exact .inr (.inr fun q hq => hq.trans hp.symm)
  quiet := by
    rintro s s' lbl o ⟨l, h⟩ hstep hnot hready
    obtain ⟨l', hmoves, h'⟩ := h.step hstep
    have hsame : l' = l := by
      cases hstep with
      | call hp ha => exact hmoves
      | @act p o a d => exact absurd rfl (hnot p o a)
      | ret hp hd => exact hmoves
    subst hsame
    cases o with
    | add jp job => exact ⟨jp, rfl⟩
    | take b => exact h.ready_iff.mpr (h'.ready_iff.mp hready)
    | replace jp => exact ⟨jp, rfl⟩

theorem exclusive_start (P : Type) [DecidableEq P] : Exclusive (start P) :=
  .of_idle (fun _ => rfl) rfl

omit [DecidableEq P] in
/-- Who tells the printer thread is in add_job, after its change. -/
theorem adds_of_tells {pc : Pc Op ℕ} (h : pc.Tells (spool printer) (· = printer)) :
    ∃ jp job a, pc = .inside (.add jp job) a ∨ pc = .unlock (.add jp job) a ∨
      pc = .outside (.add jp job) a := by
  have hadd : ∀ {o : Op}, o.outside.Reaches (· = printer) → ∃ jp job, o = .add jp job := by
    intro o ho
    cases o with
    | add jp job => exact ⟨jp, job, rfl⟩
    | take b => exact ho.elim
    | replace jp => exact ho.elim
  cases pc with
  | inside o a =>
    rcases h with h | h
    · exact h.elim
    · obtain ⟨jp, job, rfl⟩ := hadd h
      exact ⟨jp, job, a, .inl rfl⟩
  | unlock o a =>
    obtain ⟨jp, job, rfl⟩ := hadd h
    exact ⟨jp, job, a, .inr (.inl rfl)⟩
  | outside o a =>
    obtain ⟨jp, job, rfl⟩ := hadd h
    exact ⟨jp, job, a, .inr (.inr rfl)⟩
  | _ => exact h.elim

/-- Where nothing moves any more the printer thread waits. -/
theorem Placed.printer_waits {s : State P Op Jobs ℕ} (hex : Exclusive s)
    (hok : ∀ p, ¬ Faults (spool printer) s p)
    (hrest : AtRest (spool printer) (· ≠ printer) s) : (s.pc printer).Waits := by
  rcases hrest.pc hex hok printer with hidle | hwaits
  · have hcall : ∃ o s', Step (spool printer) s (.call printer o) s' := by
      cases hjp : s.data.jp with
      | none => exact ⟨.take true, _, .call hidle ⟨rfl, hjp⟩⟩
      | some jp => exact ⟨.replace jp, _, .call hidle ⟨rfl, hjp⟩⟩
    obtain ⟨o, s', hstep⟩ := hcall
    rcases hrest _ _ hstep with ⟨p, o', he, hfree⟩ | ⟨p, he⟩
    · cases he
      exact absurd rfl hfree
    · cases he
  · exact hwaits

/-- No thread uses memory that is not there, and only the printer thread waits. It does not
sleep on a queue with a job in it unless a thread in add_job is about to signal; where nothing
moves any more it waits, all jobs have been dealt with, and their memory is free. -/
theorem printer_told {s : State P Op Jobs ℕ} (h : Trace (Step (spool printer)) (start P) tr s) :
    Exclusive s ∧ (∀ p, ¬ Faults (spool printer) s p) ∧ (∀ p, (s.pc p).Waits → p = printer) ∧
      ∃ l, s.data.queue.Has l ∧
        ((s.pc printer).Waits → l ≠ [] →
          ∃ p jp job a, s.pc p = .inside (.add jp job) a ∨ s.pc p = .unlock (.add jp job) a ∨
            s.pc p = .outside (.add jp job) a) ∧
        (AtRest (spool printer) (· ≠ printer) s →
          (s.pc printer).Waits ∧ ∀ jp, s.data.queue.heap jp = none) := by
  obtain ⟨l, hplaced⟩ := (proved printer).trace ⟨_, placed_start⟩ h
  have hex := (exclusive_start P).trace h
  have hok := (proved printer).no_fault ⟨l, hplaced⟩
  have hheard : Heard (spool printer) (· = printer) s :=
    Heard.trace (telling printer) (proved printer) (.of_idle fun _ => rfl) ⟨_, placed_start⟩
      (exclusive_start P) h
  refine ⟨hex, hok, ?_, l, hplaced.has, ?_, fun hrest => ?_⟩
  · rintro p ⟨o, hp⟩
    exact (hheard.blocked hp).1
  · rintro ⟨o, hp⟩ hl
    have hready : Ready (spool printer) o s.data := by
      cases o with
      | add jp job => exact ⟨jp, rfl⟩
      | take b => exact hplaced.ready_iff.mpr hl
      | replace jp => exact ⟨jp, rfl⟩
    obtain ⟨q, hq⟩ := (hheard.blocked hp).2 hready
    exact ⟨q, adds_of_tells hq⟩
  · obtain ⟨o, hp⟩ := Placed.printer_waits hex hok hrest
    have hno := hheard.at_rest hrest hex hok hp
    have hstatus : s.atomic.status printer = .before o := congrArg Pc.status hp
    have hpicked := hplaced.picked
    rw [hstatus] at hpicked
    have hempty : l = [] ∧ s.data.jp = none := by
      cases o with
      | add jp job => exact absurd ⟨jp, rfl⟩ hno
      | take b => exact ⟨not_not.mp fun hl => hno (hplaced.ready_iff.mpr hl), hpicked⟩
      | replace jp => exact absurd ⟨jp, rfl⟩ hno
    obtain ⟨rfl, hjp⟩ := hempty
    refine ⟨⟨o, hp⟩, fun jp => not_not.mp fun halive => ?_⟩
    rcases hplaced.owned.placed halive with hin | ⟨r, hr⟩
    · exact absurd hin List.not_mem_nil
    · by_cases hrp : r = printer
      · subst hrp
        exact absurd (hr.symm.trans (holding_self.trans hjp)) (Option.some_ne_none jp)
      · rcases hrest.pc hex hok r with hidle | ⟨o', hwaits⟩
        · have hnone : holding printer s.atomic r = none :=
            (holding_of_ne hrp).trans (congrArg (fun pc => making (Pc.status pc)) hidle)
          exact absurd (hr.symm.trans hnone) (Option.some_ne_none jp)
        · exact hrp (hheard.blocked hwaits).1

end Threads

/-- The printer thread 0 waits, and thread 1 has added a job that it has not signalled. -/
theorem printer_told_unsignalled :
    ∃ tr s, Trace (Step (spool (0 : Fin 2))) (start (Fin 2)) tr s ∧ (s.pc 0).Waits ∧
      s.data.queue.Has [7] ∧ ∃ p jp job a, s.pc p = .inside (.add jp job) a ∨
        s.pc p = .unlock (.add jp job) a ∨ s.pc p = .outside (.add jp job) a := by
  have h₀ : Trace (Step (spool (0 : Fin 2))) (start (Fin 2)) [] (start (Fin 2)) := .nil
  have h₁ := h₀.snoc (.call (p := 0) (o := Op.take true) rfl ⟨rfl, rfl⟩)
  have h₂ := h₁.snoc (.lock (p := 0) (o := Op.take true) rfl rfl)
  have h₃ := h₂.snoc (.test (p := 0) (o := Op.take true) rfl rfl)
  have h₄ := h₃.snoc (.wait (p := 0) (o := Op.take true) rfl)
  have h₅ := h₄.snoc (.call (p := 1) (o := Op.add 7 ⟨1, []⟩) rfl ⟨by decide, rfl⟩)
  have h₆ := h₅.snoc (.lock (p := 1) (o := Op.add 7 ⟨1, []⟩) rfl rfl)
  have h₇ := h₆.snoc (.act (p := 1) (o := Op.add 7 ⟨1, []⟩) (a := 7) rfl rfl rfl)
  obtain ⟨-, -, -, l, hl, htold, -⟩ := printer_told h₇
  obtain rfl : l = [7] :=
    has_unique hl ⟨rfl, rfl, ⟨⟨_, rfl, rfl, rfl⟩, trivial⟩, List.nodup_singleton 7⟩
  exact ⟨_, _, h₇, ⟨_, rfl⟩, hl, htold ⟨_, rfl⟩ (List.cons_ne_nil 7 [])⟩

end Apue.Print.Pending
