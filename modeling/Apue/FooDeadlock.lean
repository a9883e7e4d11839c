import Apue.FooSafe
import Apue.Completion

/-!
The locks of both programs do not deadlock. The lock of the table is held at three places, of
which each waits for the lock of an object at most, and the lock of an object is held only
where its initialization ends, which waits for nothing. A call is at most four steps long, so
that all calls return when the threads go on in any order, as long as an int can count the
references of every object.
-/
namespace Apue.FooTable

open Programs Completion

/-- Where a thread has the lock of the table. -/
def Pc.keeps : Pc → Prop
  | .allocLinked _ => True
  | .findHold _ => True
  | .releHash _ => True
  | _ => False

/-- The steps that a call has left, at most. -/
def Pc.left : Pc → ℕ
  | .idle => 0
  | .alloc _ => 3
  | .allocLinked _ => 2
  | .allocInit _ => 1
  | .find _ => 2
  | .findHold _ => 1
  | .hold _ => 1
  | .rele _ => 4
  | .releWindow _ => 3
  | .releHash _ => 2
  | .releFree _ => 1

theorem Pc.left_eq_zero {pc : Pc} : pc.left = 0 ↔ pc = .idle := by
  cases pc <;> simp [Pc.left]

theorem Pc.left_le (pc : Pc) : pc.left ≤ 4 := by
  cases pc <;> simp [Pc.left]

namespace State

variable {v : Version} {s s' : State} {chain : ℕ → List ℕ} {t fp : ℕ} {o : Foo} {pc : Pc}

/-- Every lock is held by a thread that is where it keeps this lock. -/
structure Holders (s : State) : Prop where
  hash : ∀ u, s.hashlock = some u → (s.thread u).keeps
  object : ∀ a o u, s.foo a = some o → o.f_lock = some u → s.thread u = .allocInit a

theorem Holders.initial : State.initial.Holders := ⟨nofun, nofun⟩

/-- No lock of an object is taken. -/
def Unlocking (s s' : State) : Prop :=
  ∀ a o' u, s'.foo a = some o' → o'.f_lock = some u → ∃ o, s.foo a = some o ∧ o.f_lock = some u

theorem unlocking_of_foo (h : s'.foo = s.foo) : s.Unlocking s' :=
  fun _ o' _ ho hu => ⟨o', h ▸ ho, hu⟩

theorem unlocking_update {o' : Foo} (h : s'.foo = Function.update s.foo fp (some o'))
    (ho : s.foo fp = some o) (hlock : o'.f_lock = o.f_lock ∨ o'.f_lock = none) :
    s.Unlocking s' := by
  intro a q u hq hu
  rw [h] at hq
  by_cases ha : a = fp
  · subst ha
    rw [Function.update_self] at hq
    obtain rfl := Option.some.inj hq
    rcases hlock with hlock | hlock
    · exact ⟨o, ho, hlock ▸ hu⟩
    · rw [hlock] at hu
      cases hu
  · rw [Function.update_of_ne ha] at hq
    exact ⟨q, hq, hu⟩

theorem unlocking_remove (hs : s.remove fp o = some s') : s.Unlocking s' := by
  unfold State.remove at hs
  split at hs
  · obtain rfl := Option.some.inj hs
    exact unlocking_of_foo rfl
  · split at hs
    · cases hs
    · split at hs
      · cases hs
      case h_2 p hp =>
        obtain rfl := Option.some.inj hs
        exact unlocking_update rfl hp (Or.inl rfl)

theorem remove_thread (hs : s.remove fp o = some s') : s'.thread = s.thread := by
  unfold State.remove at hs
  split at hs
  · obtain rfl := Option.some.inj hs
    rfl
  · split at hs
    · cases hs
    · split at hs
      · cases hs
      · obtain rfl := Option.some.inj hs
        rfl

/-- A thread goes on. It has not been where the lock of an object is held, and it takes none. -/
theorem Holders.act (h : s.Holders) (hnot : ∀ a, s.thread t ≠ .allocInit a)
    (hthread : s'.thread = Function.update s.thread t pc) (hlocks : s.Unlocking s')
    (hhash : s'.hashlock = none ∨ s'.hashlock = some t ∧ pc.keeps ∨
      s'.hashlock = s.hashlock ∧ ¬ (s.thread t).keeps) : s'.Holders := by
  refine ⟨fun u hu => ?_, fun a o' u ho hu => ?_⟩
  · rw [hthread]
    rcases hhash with hnone | ⟨hmine, hkeeps⟩ | ⟨hsame, hkeeps⟩
    · rw [hnone] at hu
      cases hu
    · obtain rfl := Option.some.inj (hmine.symm.trans hu)
      rw [Function.update_self]
      exact hkeeps
    · have hold := h.hash u (hsame ▸ hu)
      have hut : u ≠ t := by
        rintro rfl
        exact hkeeps hold
      rw [Function.update_of_ne hut]
      exact hold
  · obtain ⟨o, ho, hu⟩ := hlocks a o' u ho hu
    have hinit := h.object a o u ho hu
    have hut : u ≠ t := by
      rintro rfl
      exact hnot a hinit
    rw [hthread, Function.update_of_ne hut]
    exact hinit

theorem Holders.failed (h : s.Holders) : s.failed.Holders := ⟨h.hash, h.object⟩

theorem Holders.unlink (h : s.Holders) (hnot : ∀ a, s.thread t ≠ .allocInit a) {n : ℕ} :
    (s.unlink t fp o n).Holders := by
  unfold State.unlink
  split
  · exact h.failed
  case h_2 s₁ hs₁ =>
    have hlocks := unlocking_remove hs₁
    have hthread : (s₁.go t (.releFree fp)).thread =
        Function.update s.thread t (.releFree fp) := by
      unfold State.go
      rw [remove_thread hs₁]
    exact h.act hnot hthread hlocks (Or.inl rfl)

theorem Holders.found (h : s.Holders) {r : ℕ} (hpc : ¬ (s.thread t).keeps)
    (hnot : ∀ a, s.thread t ≠ .allocInit a) : (s.found v t r).Holders := by
  unfold State.found
  split
  · exact h.act hnot rfl (unlocking_of_foo rfl) (Or.inr (Or.inr ⟨rfl, hpc⟩))
  · split
    · exact h.act hnot rfl (unlocking_of_foo rfl) (Or.inr (Or.inl ⟨rfl, trivial⟩))
    · split
      · exact h.failed
      case h_2 o ho =>
        exact h.act hnot rfl (unlocking_update rfl ho (Or.inl rfl)) (Or.inr (Or.inr ⟨rfl, hpc⟩))

theorem Holders.begin {c : Call} (h : s.Holders) (hidle : s.thread t = .idle)
    (hs : s.begin t c = some s') : s'.Holders := by
  have hnot : ∀ a, s.thread t ≠ .allocInit a := fun a => by
    rw [hidle]
    exact Pc.noConfusion
  have hkeeps : ¬ (s.thread t).keeps := by
    rw [hidle]
    exact id
  cases c with
  | alloc fp id =>
    obtain ⟨-, hs⟩ := Option.ite_none_right_eq_some.mp hs
    obtain rfl := Option.some.inj hs
    refine h.act hnot rfl (fun a o u ho hu => ?_) (Or.inr (Or.inr ⟨rfl, hkeeps⟩))
    change Function.update s.foo fp (some ⟨1, none, id, 0, s.serials⟩) a = some o at ho
    by_cases ha : a = fp
    · rw [ha, Function.update_self] at ho
      obtain rfl := Option.some.inj ho
      cases hu
    · rw [Function.update_of_ne ha] at ho
      exact ⟨o, ho, hu⟩
  | find id =>
    obtain rfl := Option.some.inj hs
    exact h.act hnot rfl (unlocking_of_foo rfl) (Or.inr (Or.inr ⟨rfl, hkeeps⟩))
  | hold fp =>
    obtain ⟨-, hs⟩ := Option.ite_none_right_eq_some.mp hs
    obtain rfl := Option.some.inj hs
    exact h.act hnot rfl (unlocking_of_foo rfl) (Or.inr (Or.inr ⟨rfl, hkeeps⟩))
  | rele fp =>
    obtain ⟨-, hs⟩ := Option.ite_none_right_eq_some.mp hs
    obtain rfl := Option.some.inj hs
    exact h.act hnot rfl (unlocking_of_foo rfl) (Or.inr (Or.inr ⟨rfl, hkeeps⟩))
  | give u fp =>
    obtain ⟨-, hs⟩ := Option.ite_none_right_eq_some.mp hs
    obtain rfl := Option.some.inj hs
    exact ⟨h.hash, h.object⟩

/-- A step that writes an object and leaves its lock alone. -/
theorem Holders.write (h : s.Holders) (hnot : ∀ a, s.thread t ≠ .allocInit a) {o' : Foo}
    (ho : s.foo fp = some o) (hfoo : s'.foo = Function.update s.foo fp (some o'))
    (hthread : s'.thread = Function.update s.thread t pc) (hlock : o'.f_lock = o.f_lock)
    (hhash : s'.hashlock = none ∨ s'.hashlock = some t ∧ pc.keeps ∨
      s'.hashlock = s.hashlock ∧ ¬ (s.thread t).keeps) : s'.Holders :=
  h.act hnot hthread (unlocking_update hfoo ho (Or.inl hlock)) hhash

/-- The initialization of an object begins, with its lock and without the lock of the table. -/
theorem Holders.lockFoo (h : s.Holders) (hpc : s.thread t = .allocLinked fp) {o' : Foo}
    (hfoo : s'.foo = Function.update s.foo fp (some o'))
    (hthread : s'.thread = Function.update s.thread t (.allocInit fp))
    (hlock : o'.f_lock = some t) (hhash : s'.hashlock = none) : s'.Holders := by
  refine ⟨fun u hu => ?_, fun a q u hq hu => ?_⟩
  · rw [hhash] at hu
    cases hu
  · rw [hfoo] at hq
    rw [hthread]
    by_cases ha : a = fp
    · subst ha
      rw [Function.update_self] at hq
      obtain rfl := Option.some.inj hq
      obtain rfl := Option.some.inj (hlock.symm.trans hu)
      exact Function.update_self ..
    · rw [Function.update_of_ne ha] at hq
      have hinit := h.object a q u hq hu
      have hut : u ≠ t := by
        rintro rfl
        rw [hpc] at hinit
        cases hinit
      rw [Function.update_of_ne hut]
      exact hinit

/-- The initialization of an object ends. -/
theorem Holders.unlockFoo (h : s.Holders) (hpc : s.thread t = .allocInit fp) {o' : Foo}
    (hfoo : s'.foo = Function.update s.foo fp (some o'))
    (hthread : s'.thread = Function.update s.thread t .idle)
    (hlock : o'.f_lock = none) (hhash : s'.hashlock = s.hashlock) : s'.Holders := by
  refine ⟨fun u hu => ?_, fun a q u hq hu => ?_⟩
  · have hkeeps := h.hash u (hhash ▸ hu)
    have hut : u ≠ t := by
      rintro rfl
      rw [hpc] at hkeeps
      exact hkeeps
    rw [hthread, Function.update_of_ne hut]
    exact hkeeps
  · rw [hfoo] at hq
    by_cases ha : a = fp
    · subst ha
      rw [Function.update_self] at hq
      obtain rfl := Option.some.inj hq
      rw [hlock] at hu
      cases hu
    · rw [Function.update_of_ne ha] at hq
      have hinit := h.object a q u hq hu
      have hut : u ≠ t := by
        rintro rfl
        exact ha (Pc.allocInit.inj (hinit.symm.trans hpc))
      rw [hthread, Function.update_of_ne hut]
      exact hinit

theorem Holders.next (h : s.Holders) (hs : s.next v t = some s') : s'.Holders := by
  cases hpc : s.thread t with
  | idle =>
    simp only [State.next, hpc] at hs
    cases hs
  | find id =>
    simp only [State.next, hpc] at hs
    obtain ⟨-, hs⟩ := Option.ite_none_right_eq_some.mp hs
    split at hs
    · obtain rfl := Option.some.inj hs
      exact h.failed
    · obtain rfl := Option.some.inj hs
      exact h.found (by simp [hpc, Pc.keeps]) (by simp [hpc])
  | releWindow fp =>
    simp only [State.next, hpc] at hs
    obtain ⟨-, hs⟩ := Option.ite_none_right_eq_some.mp hs
    obtain rfl := Option.some.inj hs
    exact h.act (by simp [hpc]) rfl (unlocking_of_foo rfl) (Or.inr (Or.inl ⟨rfl, trivial⟩))
  | alloc fp =>
    simp only [State.next, hpc] at hs
    obtain ⟨-, hs⟩ := Option.ite_none_right_eq_some.mp hs
    cases ho : s.foo fp <;> rw [ho] at hs <;> obtain rfl := Option.some.inj hs
    · exact h.failed
    · exact h.write (by simp [hpc]) ho rfl rfl rfl (Or.inr (Or.inl ⟨rfl, trivial⟩))
  | allocLinked fp =>
    simp only [State.next, hpc] at hs
    cases ho : s.foo fp <;> rw [ho] at hs
    · obtain rfl := Option.some.inj hs
      exact h.failed
    · obtain ⟨-, hs⟩ := Option.ite_none_right_eq_some.mp hs
      obtain rfl := Option.some.inj hs
      exact h.lockFoo hpc rfl rfl rfl rfl
  | allocInit fp =>
    simp only [State.next, hpc] at hs
    cases ho : s.foo fp <;> rw [ho] at hs <;> obtain rfl := Option.some.inj hs
    · exact h.failed
    · exact h.unlockFoo hpc rfl rfl rfl rfl
  | findHold fp =>
    simp only [State.next, hpc] at hs
    cases ho : s.foo fp <;> rw [ho] at hs
    · obtain rfl := Option.some.inj hs
      exact h.failed
    · obtain ⟨-, hs⟩ := Option.ite_none_right_eq_some.mp hs
      obtain rfl := Option.some.inj hs
      exact h.write (by simp [hpc]) ho rfl rfl rfl (Or.inl rfl)
  | hold fp =>
    have hkeeps : ¬ (s.thread t).keeps := by simp [hpc, Pc.keeps]
    simp only [State.next, hpc] at hs
    cases ho : s.foo fp <;> rw [ho] at hs
    · obtain rfl := Option.some.inj hs
      exact h.failed
    · obtain ⟨-, hs⟩ := Option.ite_none_right_eq_some.mp hs
      obtain rfl := Option.some.inj hs
      exact h.write (by simp [hpc]) ho rfl rfl rfl (Or.inr (Or.inr ⟨rfl, hkeeps⟩))
  | rele fp =>
    have hkeeps : ¬ (s.thread t).keeps := by simp [hpc, Pc.keeps]
    have hnot : ∀ a, s.thread t ≠ .allocInit a := by simp [hpc]
    simp only [State.next, hpc] at hs
    cases ho : s.foo fp <;> rw [ho] at hs
    · obtain rfl := Option.some.inj hs
      exact h.failed
    case some o =>
      have hdropped : ((s.dropRef t fp o).go t .idle).Holders :=
        h.write hnot ho rfl rfl rfl (Or.inr (Or.inr ⟨rfl, hkeeps⟩))
      cases v <;> obtain ⟨-, hs⟩ := Option.ite_none_right_eq_some.mp hs <;> split at hs <;>
        obtain rfl := Option.some.inj hs
      · exact h.act hnot rfl (unlocking_of_foo rfl) (Or.inr (Or.inr ⟨rfl, hkeeps⟩))
      · exact hdropped
      · refine hdropped.unlink fun a => ?_
        show Function.update s.thread t .idle t ≠ _
        rw [Function.update_self]
        exact Pc.noConfusion
      · exact hdropped
  | releHash fp =>
    have hnot : ∀ a, s.thread t ≠ .allocInit a := by simp [hpc]
    simp only [State.next, hpc] at hs
    cases ho : s.foo fp <;> rw [ho] at hs
    · obtain rfl := Option.some.inj hs
      exact h.failed
    · obtain ⟨-, hs⟩ := Option.ite_none_right_eq_some.mp hs
      split at hs <;> obtain rfl := Option.some.inj hs
      · exact h.write hnot ho rfl rfl rfl (Or.inl rfl)
      · exact h.unlink hnot
  | releFree fp =>
    have hkeeps : ¬ (s.thread t).keeps := by simp [hpc, Pc.keeps]
    simp only [State.next, hpc] at hs
    cases ho : s.foo fp <;> rw [ho] at hs <;> obtain rfl := Option.some.inj hs
    · exact h.failed
    · refine h.act (by simp [hpc]) rfl (fun a q u hq hu => ?_) (Or.inr (Or.inr ⟨rfl, hkeeps⟩))
      by_cases ha : a = fp
      · subst ha
        cases (Function.update_self ..).symm.trans hq
      · exact ⟨q, (Function.update_of_ne ha ..).symm.trans hq, hu⟩

theorem Holders.step {e : Event} (h : s.Holders) (hs : s.step v e = some s') : s'.Holders := by
  unfold State.step at hs
  split at hs
  · cases hs
  · split at hs
    · obtain ⟨hidle, hs⟩ := Option.ite_none_right_eq_some.mp hs
      exact h.begin hidle hs
    · exact h.next hs

theorem unlink_thread {n : ℕ} (hfault : (s.unlink t fp o n).fault = false) :
    (s.unlink t fp o n).thread = Function.update s.thread t (.releFree fp) := by
  revert hfault
  unfold State.unlink
  split
  · exact Bool.noConfusion
  case h_2 s₁ hs₁ =>
    intro _
    show Function.update s₁.thread t _ = _
    rw [remove_thread hs₁]

theorem found_thread {r : ℕ} (hfault : (s.found v t r).fault = false) :
    ∃ pc : Pc, (s.found v t r).thread = Function.update s.thread t pc ∧ pc.left ≤ 1 := by
  revert hfault
  unfold State.found
  split
  · exact fun _ => ⟨.idle, rfl, Nat.zero_le 1⟩
  · split
    · exact fun _ => ⟨.findHold r, rfl, Nat.le_refl 1⟩
    · split
      · exact Bool.noConfusion
      · exact fun _ => ⟨.idle, rfl, Nat.zero_le 1⟩

/-- A step of a thread brings its call nearer to its end and leaves the other threads where they
are. -/
theorem next_left (hs : s.next v t = some s') (hfault : s'.fault = false) :
    ∃ pc : Pc, s'.thread = Function.update s.thread t pc ∧ pc.left < (s.thread t).left := by
  cases hpc : s.thread t with
  | idle =>
    simp only [State.next, hpc] at hs
    cases hs
  | find id =>
    simp only [State.next, hpc] at hs
    obtain ⟨-, hs⟩ := Option.ite_none_right_eq_some.mp hs
    split at hs <;> obtain rfl := Option.some.inj hs
    · cases hfault
    · obtain ⟨pc, hthread, hleft⟩ := found_thread hfault
      exact ⟨pc, hthread, Nat.lt_succ_of_le hleft⟩
  | releWindow fp =>
    simp only [State.next, hpc] at hs
    obtain ⟨-, hs⟩ := Option.ite_none_right_eq_some.mp hs
    obtain rfl := Option.some.inj hs
    exact ⟨.releHash fp, rfl, by simp [Pc.left]⟩
  | alloc fp =>
    simp only [State.next, hpc] at hs
    obtain ⟨-, hs⟩ := Option.ite_none_right_eq_some.mp hs
    split at hs <;> obtain rfl := Option.some.inj hs
    · cases hfault
    · exact ⟨.allocLinked fp, rfl, by simp [Pc.left]⟩
  | allocInit fp | releFree fp =>
    simp only [State.next, hpc] at hs
    split at hs <;> obtain rfl := Option.some.inj hs
    · cases hfault
    · exact ⟨.idle, rfl, by simp [Pc.left]⟩
  | allocLinked fp =>
    simp only [State.next, hpc] at hs
    split at hs
    · obtain rfl := Option.some.inj hs
      cases hfault
    · obtain ⟨-, hs⟩ := Option.ite_none_right_eq_some.mp hs
      obtain rfl := Option.some.inj hs
      exact ⟨.allocInit fp, rfl, by simp [Pc.left]⟩
  | findHold fp | hold fp =>
    simp only [State.next, hpc] at hs
    split at hs
    · obtain rfl := Option.some.inj hs
      cases hfault
    · obtain ⟨-, hs⟩ := Option.ite_none_right_eq_some.mp hs
      obtain rfl := Option.some.inj hs
      exact ⟨.idle, rfl, by simp [Pc.left]⟩
  | rele fp =>
    simp only [State.next, hpc] at hs
    split at hs
    · obtain rfl := Option.some.inj hs
      cases hfault
    · cases v <;> obtain ⟨-, hs⟩ := Option.ite_none_right_eq_some.mp hs <;> split at hs <;>
        obtain rfl := Option.some.inj hs
      · exact ⟨.releWindow fp, rfl, by simp [Pc.left]⟩
      · exact ⟨.idle, rfl, by simp [Pc.left]⟩
      · refine ⟨.releFree fp, ?_, by simp [Pc.left]⟩
        rw [unlink_thread hfault]
        exact Function.update_idem _ _ _
      · exact ⟨.idle, rfl, by simp [Pc.left]⟩
  | releHash fp =>
    simp only [State.next, hpc] at hs
    split at hs
    · obtain rfl := Option.some.inj hs
      cases hfault
    · obtain ⟨-, hs⟩ := Option.ite_none_right_eq_some.mp hs
      split at hs <;> obtain rfl := Option.some.inj hs
      · exact ⟨.idle, rfl, by simp [Pc.left]⟩
      · exact ⟨.releFree fp, unlink_thread hfault, by simp [Pc.left]⟩

/-- The thread that has the lock of an object can go on. -/
theorem Holders.object_free (hl : s.Holders) (ho : s.foo fp = some o) :
    o.f_lock = none ∨ ∃ u, s.next v u ≠ none := by
  cases hlock : o.f_lock with
  | none => exact Or.inl rfl
  | some u =>
    have hpc := hl.object fp o u ho hlock
    refine Or.inr ⟨u, ?_⟩
    simp [State.next, hpc, ho]

/-- No deadlock: when a thread is in a call, some thread can go on. -/
theorem Inv.exists_next (h : s.Inv v chain) (hl : s.Holders) (hbusy : s.thread t ≠ .idle) :
    ∃ u, s.next v u ≠ none := by
  have hthread := h.thread t
  -- the thread that has the lock of the table waits for the lock of an object at most
  have hholder : ∀ w, s.hashlock = some w → ∃ u, s.next v u ≠ none := by
    intro w hw
    have hkeeps := hl.hash w hw
    have hok := h.thread w
    cases hpc : s.thread w with
    | allocLinked fp =>
      rw [hpc] at hok
      obtain ⟨o, ho⟩ := h.exists_of_held hok.2
      refine (hl.object_free ho).elim (fun hfree => ⟨w, ?_⟩) id
      simp [State.next, hpc, ho, hfree]
    | findHold fp =>
      rw [hpc] at hok
      obtain ⟨-, i, hmem⟩ := hok
      obtain ⟨o, ho, -⟩ := h.shape.hashed i fp hmem
      refine (hl.object_free ho).elim (fun hfree => ⟨w, ?_⟩) id
      simp [State.next, hpc, ho, hfree]
    | releHash fp =>
      rw [hpc] at hok
      obtain ⟨o, ho⟩ := h.exists_of_held hok.2.2
      refine (hl.object_free ho).elim (fun hfree => ⟨w, ?_⟩) id
      simp only [State.next, hpc, ho, hfree, if_true]
      split <;> exact Option.some_ne_none _
    | idle | alloc fp | allocInit fp | find id | hold fp | rele fp | releWindow fp | releFree fp =>
      rw [hpc] at hkeeps
      exact hkeeps.elim
  cases hhash : s.hashlock with
  | some w => exact hholder w hhash
  | none =>
    have hno : ∀ u, s.hashlock ≠ some u := by simp [hhash]
    cases hpc : s.thread t with
    | idle => exact absurd hpc hbusy
    | alloc fp =>
      refine ⟨t, ?_⟩
      simp only [State.next, hpc, hhash, if_true]
      split <;> exact Option.some_ne_none _
    | allocLinked fp =>
      rw [hpc] at hthread
      exact absurd hthread.1 (hno t)
    | allocInit fp =>
      refine ⟨t, ?_⟩
      simp only [State.next, hpc]
      split <;> exact Option.some_ne_none _
    | find id =>
      refine ⟨t, ?_⟩
      simp only [State.next, hpc, hhash, if_true]
      split <;> exact Option.some_ne_none _
    | findHold fp =>
      rw [hpc] at hthread
      exact absurd hthread.1 (hno t)
    | hold fp =>
      rw [hpc] at hthread
      obtain ⟨o, ho⟩ := h.exists_of_held hthread
      refine (hl.object_free ho).elim (fun hfree => ⟨t, ?_⟩) id
      cases v <;> simp [State.next, hpc, ho, hfree, hhash]
    | rele fp =>
      rw [hpc] at hthread
      obtain ⟨o, ho⟩ := h.exists_of_held hthread
      refine (hl.object_free ho).elim (fun hfree => ⟨t, ?_⟩) id
      cases v <;> simp only [State.next, hpc, ho, hfree, hhash, if_true] <;> split <;>
        exact Option.some_ne_none _
    | releWindow fp =>
      refine ⟨t, ?_⟩
      simp [State.next, hpc, hhash]
    | releHash fp =>
      rw [hpc] at hthread
      exact absurd hthread.2.1 (hno t)
    | releFree fp =>
      refine ⟨t, ?_⟩
      simp only [State.next, hpc]
      split <;> exact Option.some_ne_none _

/-- A step that takes no reference. -/
theorem refs_of_sublist (h : s'.held.Sublist s.held) (a : ℕ) :
    s'.refs a ≤ s.refs a + 1 ∧ (s'.thread t ≠ .idle → s'.refs a ≤ s.refs a) := by
  have hle : s'.refs a ≤ s.refs a := h.countP_le
  exact ⟨Nat.le_succ_of_le hle, fun _ => hle⟩

/-- A step that takes a reference, with which a call returns. -/
theorem refs_of_cons {e : ℕ × ℕ} (h : s'.held = e :: s.held) (hidle : s'.thread t = .idle)
    (a : ℕ) : s'.refs a ≤ s.refs a + 1 ∧ (s'.thread t ≠ .idle → s'.refs a ≤ s.refs a) := by
  refine ⟨?_, fun hbusy => absurd hidle hbusy⟩
  rw [refs, h, List.countP_cons]
  exact Nat.add_le_add_left (by split <;> decide) _

theorem found_refs {r : ℕ} (a : ℕ) : (s.found v t r).refs a ≤ s.refs a + 1 ∧
    ((s.found v t r).thread t ≠ .idle → (s.found v t r).refs a ≤ s.refs a) := by
  unfold State.found
  split
  · exact refs_of_sublist (.refl _) a
  · split
    · exact refs_of_sublist (.refl _) a
    · split
      · exact refs_of_sublist (.refl _) a
      · exact refs_of_cons rfl (Function.update_self ..) a

/-- A step of a thread in a call adds at most one reference, and then the call returns. -/
theorem next_refs (hs : s.next v t = some s') (a : ℕ) :
    s'.refs a ≤ s.refs a + 1 ∧ (s'.thread t ≠ .idle → s'.refs a ≤ s.refs a) := by
  cases hpc : s.thread t with
  | idle =>
    simp only [State.next, hpc] at hs
    cases hs
  | find id =>
    simp only [State.next, hpc] at hs
    obtain ⟨-, hs⟩ := Option.ite_none_right_eq_some.mp hs
    split at hs <;> obtain rfl := Option.some.inj hs
    · exact refs_of_sublist (.refl _) a
    · exact found_refs a
  | releWindow fp =>
    simp only [State.next, hpc] at hs
    obtain ⟨-, hs⟩ := Option.ite_none_right_eq_some.mp hs
    obtain rfl := Option.some.inj hs
    exact refs_of_sublist (.refl _) a
  | alloc fp =>
    simp only [State.next, hpc] at hs
    obtain ⟨-, hs⟩ := Option.ite_none_right_eq_some.mp hs
    split at hs <;> obtain rfl := Option.some.inj hs <;> exact refs_of_sublist (.refl _) a
  | allocInit fp =>
    simp only [State.next, hpc] at hs
    split at hs <;> obtain rfl := Option.some.inj hs <;> exact refs_of_sublist (.refl _) a
  | allocLinked fp =>
    simp only [State.next, hpc] at hs
    split at hs
    · obtain rfl := Option.some.inj hs
      exact refs_of_sublist (.refl _) a
    · obtain ⟨-, hs⟩ := Option.ite_none_right_eq_some.mp hs
      obtain rfl := Option.some.inj hs
      exact refs_of_sublist (.refl _) a
  | findHold fp | hold fp =>
    simp only [State.next, hpc] at hs
    split at hs
    · obtain rfl := Option.some.inj hs
      exact refs_of_sublist (.refl _) a
    · obtain ⟨-, hs⟩ := Option.ite_none_right_eq_some.mp hs
      obtain rfl := Option.some.inj hs
      exact refs_of_cons rfl (Function.update_self ..) a
  | rele fp =>
    simp only [State.next, hpc] at hs
    split at hs
    · obtain rfl := Option.some.inj hs
      exact refs_of_sublist (.refl _) a
    · cases v <;> obtain ⟨-, hs⟩ := Option.ite_none_right_eq_some.mp hs <;> split at hs <;>
        obtain rfl := Option.some.inj hs
      · exact refs_of_sublist (.refl _) a
      · exact refs_of_sublist List.erase_sublist a
      · refine refs_of_sublist ?_ a
        rw [unlink_held]
        exact List.erase_sublist
      · exact refs_of_sublist List.erase_sublist a
  | releHash fp =>
    simp only [State.next, hpc] at hs
    split at hs
    · obtain rfl := Option.some.inj hs
      exact refs_of_sublist (.refl _) a
    · obtain ⟨-, hs⟩ := Option.ite_none_right_eq_some.mp hs
      split at hs <;> obtain rfl := Option.some.inj hs
      · exact refs_of_sublist List.erase_sublist a
      · refine refs_of_sublist ?_ a
        rw [unlink_held]
  | releFree fp =>
    simp only [State.next, hpc] at hs
    split at hs <;> obtain rfl := Option.some.inj hs
    · exact refs_of_sublist (.refl _) a
    · cases v
      · exact refs_of_sublist List.erase_sublist a
      · exact refs_of_sublist (.refl _) a

/-- An int can count the references of each object, also those that the threads in `busy`,
which are all that are in calls, can add. -/
def Room (s : State) : Prop :=
  ∃ busy : List ℕ, (∀ t, s.thread t ≠ .idle → t ∈ busy) ∧ ∀ a, s.refs a + busy.length < 2 ^ 31

theorem Room.few (h : s.Room) : s.Few := fun a => by
  obtain ⟨busy, -, hlt⟩ := h
  exact Nat.lt_of_le_of_lt (Nat.le_add_right _ _) (hlt a)

/-- What all states have in common from which the calls can return. -/
structure Fine (v : Version) (s : State) : Prop where
  holders : s.Holders
  inv : ∃ chain, s.Inv v chain ∧ s.Chained chain
  room : s.Room

theorem Fine.step_go (h : s.Fine v) : s.step v (.go t) = s.next v t := by
  obtain ⟨chain, hinv, -⟩ := h.inv
  simp [State.step, hinv.noFault]

theorem Room.next {pc : Pc} (h : s.Room) (hs : s.next v t = some s')
    (hthread : s'.thread = Function.update s.thread t pc) : s'.Room := by
  obtain ⟨busy, hbusy, hlt⟩ := h
  have hothers : ∀ u, u ≠ t → s'.thread u = s.thread u := fun u hu => by
    rw [hthread, Function.update_of_ne hu]
  have hmem : t ∈ busy := hbusy t fun hidle => by simp [State.next, hidle] at hs
  have hpos := List.length_pos_of_mem hmem
  by_cases hidle : s'.thread t = .idle
  · refine ⟨busy.erase t, fun u hu => ?_, fun a => ?_⟩
    · have hut : u ≠ t := by
        rintro rfl
        exact hu hidle
      exact (List.mem_erase_of_ne hut).mpr (hbusy u (hothers u hut ▸ hu))
    · have hle := (next_refs hs a).1
      have hbound := hlt a
      rw [List.length_erase_of_mem hmem]
      omega
  · refine ⟨busy, fun u hu => ?_, fun a => ?_⟩
    · by_cases hut : u = t
      · exact hut ▸ hmem
      · exact hbusy u (hothers u hut ▸ hu)
    · have hle := (next_refs hs a).2 hidle
      have hbound := hlt a
      omega

theorem Fine.go (h : s.Fine v) (hs : s.step v (.go t) = some s') : s'.Fine v := by
  obtain ⟨chain, hinv, hc⟩ := h.inv
  have hinv' := hinv.step hc h.room.few hs
  refine ⟨h.holders.step hs, hinv', ?_⟩
  obtain ⟨chain', hinv', -⟩ := hinv'
  rw [h.step_go] at hs
  obtain ⟨pc, hthread, -⟩ := next_left hs hinv'.noFault
  exact h.room.next hs hthread

/-- The threads end their calls when none begins another. -/
theorem ending (v : Version) :
    Ending (fun s t => State.step v s (.go t)) (Fine v) fun s t => (s.thread t).left where
  keeps _ _ _ hs hstep := hs.go hstep
  nearer s t s' hs hstep := by
    obtain ⟨chain', hinv', -⟩ := (hs.go hstep).inv
    rw [hs.step_go] at hstep
    obtain ⟨pc, hthread, hleft⟩ := next_left hstep hinv'.noFault
    rwa [hthread, Function.update_self]
  others s t s' hs hstep u hu := by
    obtain ⟨chain', hinv', -⟩ := (hs.go hstep).inv
    rw [hs.step_go] at hstep
    obtain ⟨pc, hthread, -⟩ := next_left hstep hinv'.noFault
    rw [hthread, Function.update_of_ne hu]
  goesOn s t hs hleft := by
    obtain ⟨chain, hinv, -⟩ := hs.inv
    have hbusy : s.thread t ≠ .idle := fun hidle => by
      rw [hidle] at hleft
      exact Nat.lt_irrefl 0 hleft
    obtain ⟨u, hu⟩ := hinv.exists_next hs.holders hbusy
    refine ⟨u, ?_⟩
    rw [hs.step_go]
    exact Option.ne_none_iff_exists'.mp hu

end State

theorem holders_of_reaches {v : Version} {s : State}
    (h : Reaches (State.step v) (fun s _ => s.Few) .initial s) : s.Holders := by
  induction h with
  | start => exact .initial
  | step _ _ hs ih => exact ih.step hs

/-- The locks do not deadlock, and all calls return. When the threads go on in any order from a
state that a run of one of the programs reaches, and no call is begun, each thread makes four
steps at most, and as long as a thread is in a call some thread can go on; so in the end all
calls have returned. -/
theorem calls_return (v : Version) (s : State)
    (h : Reaches (State.step v) (fun s _ => s.Few) .initial s) (hroom : s.Room) :
    (∀ ts s', steps (fun s t => State.step v s (.go t)) ts s = some s' →
      (∀ t, ts.count t ≤ 4) ∧
      ∀ t, s'.thread t ≠ .idle → ∃ u s'', State.step v s' (.go u) = some s'') ∧
    ∃ ts s', steps (fun s t => State.step v s (.go t)) ts s = some s' ∧
      ∀ t, s'.thread t = .idle := by
  have hfine : s.Fine v := ⟨holders_of_reaches h, inv_of_reaches h, hroom⟩
  have hending := State.ending v
  refine ⟨fun ts s' hrun => ⟨fun t => ?_, fun t hbusy => ?_⟩, ?_⟩
  · have hcount := hending.count_add_left_le hfine hrun t
    have hle := (s.thread t).left_le
    omega
  · refine hending.goesOn s' t (hending.good_steps hfine hrun) (Nat.pos_of_ne_zero fun hzero => ?_)
    exact hbusy (Pc.left_eq_zero.mp hzero)
  · obtain ⟨busy, hbusy, -⟩ := hroom
    obtain ⟨ts, s', hrun, -, hend⟩ := hending.exists_end hfine busy fun t hleft =>
      hbusy t fun hidle => by
        rw [hidle] at hleft
        exact Nat.lt_irrefl 0 hleft
    exact ⟨ts, s', hrun, fun t => Pc.left_eq_zero.mp (hend t)⟩

theorem State.few_of_length {s : State} (h : s.held.length < 2 ^ 31) : s.Few := fun _ =>
  Nat.lt_of_le_of_lt List.countP_le_length h

/-- A finder has the lock of the table and waits for the lock of an object that is being
initialized, and another one waits for the lock of the table. -/
theorem calls_return_waiting : ∃ s, Reaches (State.step .mutex2) (fun s _ => s.Few) .initial s ∧
    s.step .mutex2 (.go 1) = none ∧ s.step .mutex2 (.go 2) = none ∧
    ∃ ts s', steps (fun s t => State.step .mutex2 s (.go t)) ts s = some s' ∧
      ∀ t, s'.thread t = .idle := by
  obtain ⟨s, hs, hfinder, hother, hbusy, hheld⟩ : ∃ s,
      steps (guarded (fun s _ => decide (s.held.length < 2 ^ 31)) (State.step .mutex2))
        [.call 0 (.alloc 1 5), .go 0, .go 0, .call 1 (.find 5), .go 1, .call 2 (.find 5)]
        State.initial = some s ∧ s.step .mutex2 (.go 1) = none ∧
      s.step .mutex2 (.go 2) = none ∧ (∀ t, s.thread t ≠ .idle → t ∈ [0, 1, 2]) ∧
      s.held = [(0, 1)] := by
    refine ⟨_, rfl, rfl, rfl, fun t ht => ?_, rfl⟩
    by_contra hmem
    simp only [List.mem_cons, not_or] at hmem
    refine ht ?_
    change Function.update (Function.update (Function.update (Function.update (Function.update
      (Function.update (fun _ => Pc.idle) 0 _) 0 _) 0 _) 1 _) 1 _) 2 _ t = .idle
    simp [hmem]
  have hreach := Reaches.of_steps (fun s _ h => State.few_of_length (of_decide_eq_true h)) .start hs
  refine ⟨s, hreach, hfinder, hother, (calls_return .mutex2 s hreach ⟨_, hbusy, fun a => ?_⟩).2⟩
  have hle : s.refs a ≤ s.held.length := List.countP_le_length
  rw [hheld] at hle
  exact Nat.lt_of_le_of_lt (Nat.add_le_add_right hle 3) (by decide)

end Apue.FooTable
