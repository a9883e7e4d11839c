import Apue.Programs
import Mathlib.Logic.Function.Basic
import Mathlib.Data.List.Basic

/-!
Threads that share data under one mutex and wait on one condition variable. Each
operation of a thread takes the mutex, waits in a loop until a test finds something
to go on with, changes the data, gives the mutex back and may tell the waiting
threads, under the mutex or after it. What it does to memory of its own before and
after stands outside the mutex.

The threads interleave at the calls, and a wait may end without a signal. The main
result of this module is that every run is also one of the atomic machine, in which
the test and the change are one step: what is proved of that machine holds here.
-/
namespace Apue.Monitors

open Programs

/-- What is called on the condition variable. -/
inductive Notify
  | nothing
  | signal
  | broadcast
  deriving DecidableEq

/-- The operations `O` of the threads `P` on the data `σ`. A test, a change or an exit
without a result has used memory that is not there. -/
structure Monitor (P O σ A : Type) where
  allowed : P → O → σ → Prop
  enter : O → σ → σ
  test : O → σ → Option (Option A)
  act : O → A → σ → Option σ
  inside : O → Notify
  outside : O → Notify
  exit : O → A → σ → Option σ

/-- Where a thread is: before a call, or `blocked` in pthread_cond_wait, or `woken` and
not yet back with the mutex. -/
inductive Pc (O A : Type)
  | idle
  | lock (o : O)
  | test (o : O)
  | wait (o : O)
  | blocked (o : O)
  | woken (o : O)
  | inside (o : O) (a : A)
  | unlock (o : O) (a : A)
  | outside (o : O) (a : A)
  | exit (o : O) (a : A)

structure State (P O σ A : Type) where
  data : σ
  owner : Option P
  pc : P → Pc O A

inductive Label (P O A : Type)
  | call (p : P) (o : O)
  | act (p : P) (o : O) (a : A)
  | ret (p : P) (o : O) (a : A)
  | spurious (p : P)
  | silent (p : P)

/-- The labels of a sequence of steps. -/
inductive Trace {S L : Type} (R : S → L → S → Prop) (s₀ : S) : List L → S → Prop
  | nil : Trace R s₀ [] s₀
  | snoc {tr : List L} {s s' : S} {l : L} (h : Trace R s₀ tr s) (hstep : R s l s') :
      Trace R s₀ (tr ++ [l]) s'

variable {P O σ A : Type}

def Pc.wake : Pc O A → Pc O A
  | .blocked o => .woken o
  | pc => pc

/-- A thread at one of these places has the mutex. -/
def Pc.Holds : Pc O A → Prop
  | .test _ | .wait _ | .inside _ _ | .unlock _ _ => True
  | _ => False

/-- The thread is inside an operation and does not sleep. -/
def Pc.Busy : Pc O A → Prop
  | .idle | .blocked _ => False
  | _ => True

def Pc.Waits (pc : Pc O A) : Prop := ∃ o, pc = .blocked o

def State.go [DecidableEq P] (s : State P O σ A) (p : P) (pc : Pc O A) : State P O σ A :=
  { s with pc := Function.update s.pc p pc }

/-- Whom a notification wakes: one of the waiting threads, or all of them. -/
inductive Notifies [DecidableEq P] : Notify → (P → Pc O A) → (P → Pc O A) → Prop
  | nothing {pc : P → Pc O A} : Notifies .nothing pc pc
  | nobody {pc : P → Pc O A} (h : ∀ q, ¬ (pc q).Waits) : Notifies .signal pc pc
  | one {pc : P → Pc O A} {q : P} (h : (pc q).Waits) :
      Notifies .signal pc (Function.update pc q (pc q).wake)
  | all {pc : P → Pc O A} : Notifies .broadcast pc fun q => (pc q).wake

variable [DecidableEq P] (M : Monitor P O σ A)

inductive Step : State P O σ A → Label P O A → State P O σ A → Prop
  | call {s : State P O σ A} {p : P} {o : O} (hp : s.pc p = .idle) (ha : M.allowed p o s.data) :
      Step s (.call p o) { s.go p (.lock o) with data := M.enter o s.data }
  | lock {s : State P O σ A} {p : P} {o : O} (hp : s.pc p = .lock o) (ho : s.owner = none) :
      Step s (.silent p) { s.go p (.test o) with owner := some p }
  | test {s : State P O σ A} {p : P} {o : O} (hp : s.pc p = .test o)
      (ht : M.test o s.data = some none) : Step s (.silent p) (s.go p (.wait o))
  | act {s : State P O σ A} {p : P} {o : O} {a : A} {d : σ} (hp : s.pc p = .test o)
      (ht : M.test o s.data = some (some a)) (hd : M.act o a s.data = some d) :
      Step s (.act p o a) { s.go p (.inside o a) with data := d }
  | wait {s : State P O σ A} {p : P} {o : O} (hp : s.pc p = .wait o) :
      Step s (.silent p) { s.go p (.blocked o) with owner := none }
  | spurious {s : State P O σ A} {p : P} {o : O} (hp : s.pc p = .blocked o) :
      Step s (.spurious p) (s.go p (.woken o))
  | relock {s : State P O σ A} {p : P} {o : O} (hp : s.pc p = .woken o) (ho : s.owner = none) :
      Step s (.silent p) { s.go p (.test o) with owner := some p }
  | inside {s : State P O σ A} {p : P} {o : O} {a : A} {pc : P → Pc O A}
      (hp : s.pc p = .inside o a) (hn : Notifies (M.inside o) s.pc pc) :
      Step s (.silent p) { s with pc := Function.update pc p (.unlock o a) }
  | unlock {s : State P O σ A} {p : P} {o : O} {a : A} (hp : s.pc p = .unlock o a) :
      Step s (.silent p) { s.go p (.outside o a) with owner := none }
  | outside {s : State P O σ A} {p : P} {o : O} {a : A} {pc : P → Pc O A}
      (hp : s.pc p = .outside o a) (hn : Notifies (M.outside o) s.pc pc) :
      Step s (.silent p) { s with pc := Function.update pc p (.exit o a) }
  | ret {s : State P O σ A} {p : P} {o : O} {a : A} {d : σ} (hp : s.pc p = .exit o a)
      (hd : M.exit o a s.data = some d) :
      Step s (.ret p o a) { s.go p .idle with data := d }

/-- The thread comes to code that uses memory which is not there. -/
def Faults (s : State P O σ A) (p : P) : Prop :=
  (∃ o, s.pc p = .test o ∧ (M.test o s.data = none ∨
    ∃ a, M.test o s.data = some (some a) ∧ M.act o a s.data = none)) ∨
  ∃ o a, s.pc p = .exit o a ∧ M.exit o a s.data = none

namespace Atomic

/-- Where a thread of the atomic machine is: before its change, or after it. -/
inductive Status (O A : Type)
  | idle
  | before (o : O)
  | after (o : O) (a : A)

structure State (P O σ A : Type) where
  data : σ
  status : P → Status O A

inductive Step : State P O σ A → Label P O A → State P O σ A → Prop
  | call {s : State P O σ A} {p : P} {o : O} (hp : s.status p = .idle)
      (ha : M.allowed p o s.data) :
      Step s (.call p o) ⟨M.enter o s.data, Function.update s.status p (.before o)⟩
  | act {s : State P O σ A} {p : P} {o : O} {a : A} {d : σ} (hp : s.status p = .before o)
      (ht : M.test o s.data = some (some a)) (hd : M.act o a s.data = some d) :
      Step s (.act p o a) ⟨d, Function.update s.status p (.after o a)⟩
  | ret {s : State P O σ A} {p : P} {o : O} {a : A} {d : σ} (hp : s.status p = .after o a)
      (hd : M.exit o a s.data = some d) :
      Step s (.ret p o a) ⟨d, Function.update s.status p .idle⟩

def Faults (s : State P O σ A) (p : P) : Prop :=
  (∃ o, s.status p = .before o ∧ (M.test o s.data = none ∨
    ∃ a, M.test o s.data = some (some a) ∧ M.act o a s.data = none)) ∨
  ∃ o a, s.status p = .after o a ∧ M.exit o a s.data = none

end Atomic

def Pc.status : Pc O A → Atomic.Status O A
  | .idle => .idle
  | .lock o | .test o | .wait o | .blocked o | .woken o => .before o
  | .inside o a | .unlock o a | .outside o a | .exit o a => .after o a

omit [DecidableEq P] in
/-- What the atomic machine sees of a state. -/
def State.atomic (s : State P O σ A) : Atomic.State P O σ A := ⟨s.data, fun p => (s.pc p).status⟩

/-- The steps that the atomic machine takes as well. -/
def Label.visible : Label P O A → Bool
  | .call _ _ | .act _ _ _ | .ret _ _ _ => true
  | _ => false

section Simulation

omit [DecidableEq P] in
@[simp] theorem Pc.status_wake (pc : Pc O A) : pc.wake.status = pc.status := by cases pc <;> rfl

omit [DecidableEq P] in
@[simp] theorem Pc.holds_wake (pc : Pc O A) : pc.wake.Holds ↔ pc.Holds := by cases pc <;> rfl

/-- A notification moves a thread from `blocked` to `woken`, or not at all. -/
theorem Notifies.wakes {n : Notify} {pc pc' : P → Pc O A} (h : Notifies n pc pc') (q : P) :
    pc' q = pc q ∨ pc' q = (pc q).wake := by
  cases h with
  | nothing => exact .inl rfl
  | nobody => exact .inl rfl
  | @one _ r =>
    by_cases hq : q = r
    · subst hq
      exact .inr (Function.update_self ..)
    · exact .inl (Function.update_of_ne hq _ _)
  | all => exact .inr rfl

theorem Notifies.status {n : Notify} {pc pc' : P → Pc O A} (h : Notifies n pc pc') (q : P) :
    (pc' q).status = (pc q).status := by
  rcases h.wakes q with hq | hq
  · rw [hq]
  · rw [hq, Pc.status_wake]

theorem Notifies.holds {n : Notify} {pc pc' : P → Pc O A} (h : Notifies n pc pc') (q : P) :
    (pc' q).Holds ↔ (pc q).Holds := by
  rcases h.wakes q with hq | hq
  · rw [hq]
  · rw [hq, Pc.holds_wake]

/-- After a move of `p` a thread is where `p` has gone to, or where it was. -/
theorem update_cases {B : Type} {f : P → B} {p q : P} {x y : B}
    (h : Function.update f p x q = y) : q = p ∧ x = y ∨ q ≠ p ∧ f q = y := by
  by_cases hq : q = p
  · subst hq
    rw [Function.update_self] at h
    exact .inl ⟨rfl, h⟩
  · rw [Function.update_of_ne hq] at h
    exact .inr ⟨hq, h⟩

theorem status_update (pc : P → Pc O A) (p : P) (x : Pc O A) :
    (fun q => (Function.update pc p x q).status) =
      Function.update (fun q => (pc q).status) p x.status :=
  funext fun q => Function.apply_update (fun _ => Pc.status) pc p x q

/-- A place with the same status changes nothing for the atomic machine. -/
theorem status_update_same {pc pc' : P → Pc O A} {p : P} {x : Pc O A}
    (hpc : ∀ q, (pc' q).status = (pc q).status) (hx : x.status = (pc p).status) :
    (fun q => (Function.update pc' p x q).status) = fun q => (pc q).status := by
  rw [status_update, hx, funext hpc]
  exact Function.update_eq_self p fun q => (pc q).status

variable {M} {s s' s₀ : State P O σ A} {l : Label P O A} {tr : List (Label P O A)} {p : P}

/-- A step that the atomic machine does not take changes nothing for it. -/
theorem Step.hidden (h : Step M s l s') (hl : l.visible = false) : s'.atomic = s.atomic := by
  have hsame : ∀ {d : σ} {owner : Option P} {pc : P → Pc O A}, d = s.data →
      (fun q => (pc q).status) = (fun q => (s.pc q).status) →
      State.atomic ⟨d, owner, pc⟩ = s.atomic := by
    rintro d owner pc rfl hpc
    exact congrArg (Atomic.State.mk s.data) hpc
  have hown : ∀ {q : P} {x : Pc O A}, x.status = (s.pc q).status →
      (fun r => (Function.update s.pc q x r).status) = fun r => (s.pc r).status :=
    fun hx => status_update_same (fun _ => rfl) hx
  cases h with
  | call hp ha => cases hl
  | lock hp ho => exact hsame rfl (hown (by rw [hp]; rfl))
  | test hp ht => exact hsame rfl (hown (by rw [hp]; rfl))
  | act hp ht hd => cases hl
  | wait hp => exact hsame rfl (hown (by rw [hp]; rfl))
  | spurious hp => exact hsame rfl (hown (by rw [hp]; rfl))
  | relock hp ho => exact hsame rfl (hown (by rw [hp]; rfl))
  | inside hp hn => exact hsame rfl (status_update_same hn.status (by rw [hp]; rfl))
  | unlock hp => exact hsame rfl (hown (by rw [hp]; rfl))
  | outside hp hn => exact hsame rfl (status_update_same hn.status (by rw [hp]; rfl))
  | ret hp hd => cases hl

/-- Every other step is one of the atomic machine. -/
theorem Step.atomic (h : Step M s l s') (hl : l.visible = true) :
    Atomic.Step M s.atomic l s'.atomic := by
  have hgo : ∀ (d : σ) (q : P) (x : Pc O A), State.atomic { s.go q x with data := d } =
      ⟨d, Function.update s.atomic.status q x.status⟩ :=
    fun d q x => congrArg (Atomic.State.mk d) (status_update s.pc q x)
  have hat : ∀ {q : P} {x : Pc O A}, s.pc q = x → s.atomic.status q = x.status :=
    fun hq => congrArg Pc.status hq
  cases h with
  | call hp ha =>
    rw [hgo]
    exact .call (hat hp) ha
  | act hp ht hd =>
    rw [hgo]
    exact .act (hat hp) ht hd
  | ret hp hd =>
    rw [hgo]
    exact .ret (hat hp) hd
  | _ => cases hl

/-- Every run is one of the atomic machine. -/
theorem Trace.atomic (h : Trace (Step M) s₀ tr s) :
    Trace (Atomic.Step M) s₀.atomic (tr.filter Label.visible) s.atomic := by
  induction h with
  | nil => exact .nil
  | @snoc tr s s' l _ hstep ih =>
    rw [List.filter_append]
    cases hl : l.visible with
    | true =>
      have hone : [l].filter Label.visible = [l] := List.filter_cons_of_pos hl
      rw [hone]
      exact ih.snoc (hstep.atomic hl)
    | false =>
      have hnone : [l].filter Label.visible = [] := List.filter_cons_of_neg (by rw [hl]; decide)
      rw [hnone, List.append_nil, hstep.hidden hl]
      exact ih

omit [DecidableEq P] in
/-- The code of the atomic machine is the code of the threads. -/
theorem Faults.atomic (h : Faults M s p) : Atomic.Faults M s.atomic p := by
  rcases h with ⟨o, hp, h⟩ | ⟨o, a, hp, h⟩
  · exact .inl ⟨o, congrArg Pc.status hp, h⟩
  · exact .inr ⟨o, a, congrArg Pc.status hp, h⟩

end Simulation

section Mutex

variable {M} {s s' s₀ : State P O σ A} {l : Label P O A} {tr : List (Label P O A)} {p : P}

omit [DecidableEq P] in
/-- The mutex is held by the thread that is in its section, and by no other. -/
def Exclusive (s : State P O σ A) : Prop := ∀ p, (s.pc p).Holds ↔ s.owner = some p

omit [DecidableEq P] in
theorem Exclusive.of_idle (h : ∀ p, s.pc p = .idle) (ho : s.owner = none) : Exclusive s := by
  intro p
  rw [h p, ho]
  exact iff_of_false id (Option.some_ne_none p).symm

theorem Exclusive.same {d : σ} {pc : P → Pc O A} {x : Pc O A} (h : Exclusive s)
    (hpc : ∀ q, (pc q).Holds ↔ (s.pc q).Holds) (hx : x.Holds ↔ (s.pc p).Holds) :
    Exclusive ⟨d, s.owner, Function.update pc p x⟩ := by
  intro q
  change (Function.update pc p x q).Holds ↔ s.owner = some q
  by_cases hq : q = p
  · subst hq
    rw [Function.update_self, hx]
    exact h q
  · rw [Function.update_of_ne hq, hpc]
    exact h q

theorem Exclusive.take {d : σ} {x : Pc O A} (h : Exclusive s) (ho : s.owner = none)
    (hx : x.Holds) : Exclusive ⟨d, some p, Function.update s.pc p x⟩ := by
  intro q
  change (Function.update s.pc p x q).Holds ↔ some p = some q
  by_cases hq : q = p
  · subst hq
    rw [Function.update_self]
    exact iff_of_true hx rfl
  · rw [Function.update_of_ne hq, h q, ho]
    exact iff_of_false (Option.some_ne_none q).symm fun he => hq (Option.some.inj he).symm

theorem Exclusive.give {d : σ} {x : Pc O A} (h : Exclusive s) (hp : (s.pc p).Holds)
    (hx : ¬ x.Holds) : Exclusive ⟨d, none, Function.update s.pc p x⟩ := by
  intro q
  change (Function.update s.pc p x q).Holds ↔ none = some q
  by_cases hq : q = p
  · subst hq
    rw [Function.update_self]
    exact iff_of_false hx (Option.some_ne_none q).symm
  · rw [Function.update_of_ne hq, h q, (h p).mp hp]
    exact iff_of_false (fun he => hq (Option.some.inj he).symm) (Option.some_ne_none q).symm

theorem Exclusive.step (hs : Exclusive s) (h : Step M s l s') : Exclusive s' := by
  have hplace : ∀ {q : P} {x y : Pc O A}, s.pc q = x → (y.Holds ↔ x.Holds) →
      (y.Holds ↔ (s.pc q).Holds) := fun hq hiff => hq ▸ hiff
  cases h with
  | call hp ha => exact hs.same (fun _ => Iff.rfl) (hplace hp (iff_of_false id id))
  | lock hp ho => exact hs.take ho trivial
  | test hp ht => exact hs.same (fun _ => Iff.rfl) (hplace hp (iff_of_true trivial trivial))
  | act hp ht hd => exact hs.same (fun _ => Iff.rfl) (hplace hp (iff_of_true trivial trivial))
  | wait hp => exact hs.give (by rw [hp]; trivial) id
  | spurious hp => exact hs.same (fun _ => Iff.rfl) (hplace hp (iff_of_false id id))
  | relock hp ho => exact hs.take ho trivial
  | inside hp hn => exact hs.same hn.holds (hplace hp (iff_of_true trivial trivial))
  | unlock hp => exact hs.give (by rw [hp]; trivial) id
  | outside hp hn => exact hs.same hn.holds (hplace hp (iff_of_false id id))
  | ret hp hd => exact hs.same (fun _ => Iff.rfl) (hplace hp (iff_of_false id id))

theorem Exclusive.trace (hs : Exclusive s₀) (h : Trace (Step M) s₀ tr s) : Exclusive s := by
  induction h with
  | nil => exact hs
  | snoc _ hstep ih => exact ih.step hstep

theorem exists_notifies (n : Notify) (pc : P → Pc O A) : ∃ pc', Notifies n pc pc' := by
  cases n with
  | nothing => exact ⟨pc, .nothing⟩
  | broadcast => exact ⟨_, .all⟩
  | signal =>
    by_cases h : ∃ q, (pc q).Waits
    · obtain ⟨q, hq⟩ := h
      exact ⟨_, .one hq⟩
    · exact ⟨pc, .nobody (not_exists.mp h)⟩

/-- A call comes from outside, and so does a wake-up without a signal. -/
def Label.Own : Label P O A → Prop
  | .act _ _ _ | .ret _ _ _ | .silent _ => True
  | _ => False

theorem Step.goes (h : Step M s l s') (hl : l.Own) : ∃ l s', l.Own ∧ Step M s l s' :=
  ⟨l, s', hl, h⟩

/-- A thread that has the mutex can go on. -/
theorem exists_step_of_holds (hp : (s.pc p).Holds) (hok : ¬ Faults M s p) :
    ∃ l s', l.Own ∧ Step M s l s' := by
  cases hpc : s.pc p with
  | test o =>
    cases ht : M.test o s.data with
    | none => exact absurd (.inl ⟨o, hpc, .inl ht⟩) hok
    | some r =>
      cases r with
      | none => exact Step.goes (.test hpc ht) trivial
      | some a =>
        cases hd : M.act o a s.data with
        | none => exact absurd (.inl ⟨o, hpc, .inr ⟨a, ht, hd⟩⟩) hok
        | some d => exact Step.goes (.act hpc ht hd) trivial
  | wait o => exact Step.goes (.wait hpc) trivial
  | inside o a =>
    obtain ⟨pc, hn⟩ := exists_notifies (M.inside o) s.pc
    exact Step.goes (.inside hpc hn) trivial
  | unlock o a => exact Step.goes (.unlock hpc) trivial
  | _ =>
    rw [hpc] at hp
    exact hp.elim

/-- As long as a thread is inside an operation and not blocked, some thread can go on. -/
theorem exists_step (hs : Exclusive s) (hok : ∀ q, ¬ Faults M s q) (hidle : s.pc p ≠ .idle)
    (hblocked : ¬ (s.pc p).Waits) : ∃ l s', l.Own ∧ Step M s l s' := by
  have hfree : ∀ {l : Label P O A} {s' : State P O σ A}, l.Own →
      (s.owner = none → Step M s l s') → ∃ l s', l.Own ∧ Step M s l s' := by
    intro l s' hl hstep
    cases ho : s.owner with
    | none => exact ⟨l, s', hl, hstep ho⟩
    | some q => exact exists_step_of_holds ((hs q).mpr ho) (hok q)
  cases hpc : s.pc p with
  | idle => exact absurd hpc hidle
  | lock o => exact hfree (l := .silent p) trivial (.lock hpc)
  | blocked o => exact absurd ⟨o, hpc⟩ hblocked
  | woken o => exact hfree (l := .silent p) trivial (.relock hpc)
  | outside o a =>
    obtain ⟨pc, hn⟩ := exists_notifies (M.outside o) s.pc
    exact Step.goes (.outside hpc hn) trivial
  | exit o a =>
    cases hd : M.exit o a s.data with
    | none => exact absurd (.inr ⟨o, a, hpc, hd⟩) (hok p)
    | some d => exact Step.goes (.ret hpc hd) trivial
  | _ => exact exists_step_of_holds (by rw [hpc]; trivial) (hok p)

/-- Nothing happens any more but calls of the threads in `free` and wake-ups without a
signal. -/
def AtRest (M : Monitor P O σ A) (free : P → Prop) (s : State P O σ A) : Prop :=
  ∀ l s', Step M s l s' → (∃ p o, l = .call p o ∧ free p) ∨ ∃ p, l = .spurious p

theorem AtRest.pc {free : P → Prop} (h : AtRest M free s) (hs : Exclusive s)
    (hok : ∀ q, ¬ Faults M s q) (p : P) : s.pc p = .idle ∨ (s.pc p).Waits := by
  by_contra hno
  obtain ⟨hidle, hblocked⟩ := not_or.mp hno
  obtain ⟨l, s', hl, hstep⟩ := exists_step hs hok hidle hblocked
  rcases h l s' hstep with ⟨q, o, rfl, -⟩ | ⟨q, rfl⟩
  · exact hl
  · exact hl

/-- Idle threads that may call and blocked ones are at rest. -/
theorem AtRest.of_pc {free : P → Prop} (h : ∀ p, s.pc p = .idle ∧ free p ∨ (s.pc p).Waits) :
    AtRest M free s := by
  have hno : ∀ {q : P} {x : Pc O A}, s.pc q = x → ¬ x.Busy := by
    rintro q x rfl
    rcases h q with ⟨hq, -⟩ | ⟨o, hq⟩
    · rw [hq]
      exact id
    · rw [hq]
      exact id
  intro l s' hstep
  cases hstep with
  | @call p o hp ha =>
    refine .inl ⟨p, o, rfl, ?_⟩
    rcases h p with ⟨-, hfree⟩ | ⟨o', hw⟩
    · exact hfree
    · rw [hp] at hw
      cases hw
  | @spurious p o hp => exact .inr ⟨p, rfl⟩
  | lock hp => exact absurd trivial (hno hp)
  | test hp => exact absurd trivial (hno hp)
  | act hp => exact absurd trivial (hno hp)
  | wait hp => exact absurd trivial (hno hp)
  | relock hp => exact absurd trivial (hno hp)
  | inside hp => exact absurd trivial (hno hp)
  | unlock hp => exact absurd trivial (hno hp)
  | outside hp => exact absurd trivial (hno hp)
  | ret hp => exact absurd trivial (hno hp)

end Mutex

/-- A proof about the atomic machine: every step keeps the invariant, and under it no code
uses memory that is not there. -/
structure Proved (Inv : Atomic.State P O σ A → Prop) : Prop where
  step : ∀ {s s' : Atomic.State P O σ A} {l : Label P O A}, Inv s → Atomic.Step M s l s' → Inv s'
  runs : ∀ {s : Atomic.State P O σ A} (p : P), Inv s → ¬ Atomic.Faults M s p

namespace Proved

variable {M} {Inv : Atomic.State P O σ A → Prop} {s s' s₀ : State P O σ A} {l : Label P O A}
  {tr : List (Label P O A)}

theorem keeps (hM : Proved M Inv) (hs : Inv s.atomic) (h : Step M s l s') : Inv s'.atomic := by
  cases hl : l.visible with
  | true => exact hM.step hs (h.atomic hl)
  | false =>
    rw [h.hidden hl]
    exact hs

/-- The invariant of the atomic machine holds in every state that the threads reach. -/
theorem trace (hM : Proved M Inv) (h₀ : Inv s₀.atomic) (h : Trace (Step M) s₀ tr s) :
    Inv s.atomic := by
  induction h with
  | nil => exact h₀
  | snoc _ hstep ih => exact hM.keeps ih hstep

theorem no_fault (hM : Proved M Inv) (hs : Inv s.atomic) (p : P) : ¬ Faults M s p :=
  fun h => hM.runs p hs h.atomic

end Proved

/-- A machine that follows every step of the atomic one follows every run of the threads. -/
theorem Trace.replay {M} {G : Type} {f : G → Label P O A → Option G}
    {I : G → Atomic.State P O σ A → Prop}
    (hhidden : ∀ g l, l.visible = false → f g l = some g)
    (hf : ∀ {g s s' l}, I g s → Atomic.Step M s l s' → ∃ g', f g l = some g' ∧ I g' s')
    {s₀ s : State P O σ A} {g₀ : G} {tr : List (Label P O A)} (h₀ : I g₀ s₀.atomic)
    (h : Trace (Step M) s₀ tr s) : ∃ g, steps f tr g₀ = some g ∧ I g s.atomic := by
  induction h with
  | nil => exact ⟨g₀, rfl, h₀⟩
  | @snoc tr s s' l _ hstep ih =>
    obtain ⟨g, hg, hinv⟩ := ih
    have hnext : ∃ g', f g l = some g' ∧ I g' s'.atomic := by
      cases hl : l.visible with
      | true => exact hf hinv (hstep.atomic hl)
      | false =>
        rw [hstep.hidden hl]
        exact ⟨g, hhidden g l hl, hinv⟩
    obtain ⟨g', hg', hinv'⟩ := hnext
    refine ⟨g', ?_, hinv'⟩
    rw [steps, List.foldlM_append]
    change (steps f tr g₀).bind (fun g => (f g l).bind some) = _
    rw [hg, Option.bind_some, hg', Option.bind_some]

end Apue.Monitors
