import Apue.PopenChild
import Apue.PopenFailure

/-!
The streams of a parent over its whole run. A parent that opens and closes files of its own and
hands the streams of popen to pclose keeps its array and its descriptors in step: each recorded
number refers to the pipe of its stream, and nothing else does. So the only thing that can go
wrong in a child is that its standard descriptor has the number of a stream.
-/
namespace Apue.Popen

open Programs Descriptors Decimal

instance (st : Statics) (fd : ℕ) : Decidable (Recorded st fd) :=
  inferInstanceAs (Decidable (_ ∧ _))

/-- A parent, with the pipe of each stream that is recorded. -/
structure Parent where
  st : Statics
  k : Kernel
  pipeOf : ℕ → ℕ

inductive Op
  | openFile (n : ℕ)
  | closeFile (fd : ℕ)
  | popen (type : List Byte) (a : Answers)
  | pclose (fd : ℕ) (a : Answers)

namespace Parent

/-- An operation; a stream is not closed but by pclose. The child of popen is another process. -/
def step (p : Parent) : Op → Option Parent
  | .openFile n => p.k.fds.lowest.map fun i =>
      { p with k := { p.k with fds := p.k.fds.set i (some (.other n)) } }
  | .closeFile fd =>
      if Recorded p.st fd then none
      else some { p with k := { p.k with fds := (p.k.fds.close fd).2 } }
  | .popen type a =>
    match (Popen.popen type p.st).run (serve a) p.k with
    | (.ok (.stream fd, st), k) => some ⟨st, k, Function.update p.pipeOf fd p.k.pipes⟩
    | (.ok (.null, st), k) => some ⟨st, k, p.pipeOf⟩
    | _ => none
  | .pclose fd a =>
    match (Popen.pclose fd p.st).run (serve a) p.k with
    | (.ok (_, st), k) => some ⟨st, k, p.pipeOf⟩
    | _ => none

/-- The array and the descriptors are in step. -/
structure Ok (p : Parent) : Prop where
  known : Known p.st p.pipeOf p.k
  streams : ∀ s, Recorded p.st s → ∀ fd, RefersTo p.k fd (p.pipeOf s) ↔ fd = s

end Parent

variable {a : Answers} {type : List Byte} {st st' : Statics} {k k' : Kernel} {p p' : Parent}

/-- A descriptor that is changed so that it does not refer to a stream. -/
theorem Parent.Ok.change {i : ℕ} {slot : Option File} {k' : Kernel} (h : p.Ok)
    (hnot : ¬ Recorded p.st i) (hpipes : k'.pipes = p.k.pipes)
    (hslot : ∀ f ∈ slot, f.pipe = none)
    (hfile : ∀ fd : ℕ, k'.fds.file fd = if fd = i then slot else p.k.fds.file fd) :
    Parent.Ok { p with k := k' } := by
  have hrefers : ∀ fd q, RefersTo k' fd q ↔ fd ≠ i ∧ RefersTo p.k fd q := by
    intro fd q
    unfold RefersTo
    rw [hfile]
    by_cases hfd : fd = i
    · rw [if_pos hfd]
      refine iff_of_false ?_ fun h => h.1 hfd
      rintro ⟨f, hf, hq⟩
      rw [hslot f hf] at hq
      cases hq
    · rw [if_neg hfd, and_iff_right hfd]
  refine ⟨⟨fun fd q hq => ?_, fun s hs => ?_⟩, fun s hs fd => ?_⟩
  · exact hpipes ▸ h.known.refers fd q ((hrefers fd q).mp hq).2
  · exact hpipes ▸ h.known.streams s hs
  · rw [hrefers, h.streams s hs fd]
    refine and_iff_right_of_imp fun hfd hi => hnot ?_
    rwa [← hi, hfd]

theorem refersTo_close (k : Kernel) (i fd q : ℕ) :
    RefersTo { k with fds := (k.fds.close i).2 } fd q ↔ fd ≠ i ∧ RefersTo k fd q := by
  unfold RefersTo
  simp only [Table.file_close]
  by_cases hfd : fd = i
  · rw [if_pos hfd]
    exact iff_of_false (fun ⟨_, hf, _⟩ => nomatch hf) fun h => h.1 hfd
  · rw [if_neg hfd, and_iff_right hfd]

theorem refersTo_newPipe {i j : ℕ} (h : k.newPipe = some ((i, j), k')) (fd q : ℕ) :
    RefersTo k' fd q ↔ (fd = i ∨ fd = j) ∧ q = k.pipes ∨ RefersTo k fd q := by
  obtain ⟨hne, hi, hj, -, -, -, hfile⟩ := newPipe_eq_some h
  unfold RefersTo
  rw [hfile]
  by_cases hfdj : fd = j
  · subst hfdj
    rw [if_pos rfl, hj]
    constructor
    · rintro ⟨f, hf, hq⟩
      obtain rfl := Option.some.inj hf
      exact .inl ⟨.inr rfl, (Option.some.inj hq).symm⟩
    · rintro (⟨-, rfl⟩ | ⟨f, hf, -⟩)
      · exact ⟨_, rfl, rfl⟩
      · cases hf
  · rw [if_neg hfdj]
    by_cases hfdi : fd = i
    · subst hfdi
      rw [if_pos rfl, hi]
      constructor
      · rintro ⟨f, hf, hq⟩
        obtain rfl := Option.some.inj hf
        exact .inl ⟨.inl rfl, (Option.some.inj hq).symm⟩
      · rintro (⟨-, rfl⟩ | ⟨f, hf, -⟩)
        · exact ⟨_, rfl, rfl⟩
        · cases hf
    · rw [if_neg hfdi]
      exact (or_iff_right fun h => h.1.elim hfdi hfdj).symm

/-- More pipes, but no other streams. -/
theorem Parent.Ok.grow (h : p.Ok) (hrec : ∀ s, Recorded st' s ↔ Recorded p.st s)
    (hpipes : p.k.pipes ≤ k'.pipes) (hnew : ∀ fd q, RefersTo k' fd q → q < k'.pipes)
    (hold : ∀ fd q, q < p.k.pipes → (RefersTo k' fd q ↔ RefersTo p.k fd q)) :
    Parent.Ok { p with st := st', k := k' } := by
  refine ⟨⟨hnew, fun s hs => ?_⟩, fun s hs fd => ?_⟩
  · exact Nat.lt_of_lt_of_le (h.known.streams s ((hrec s).mp hs)) hpipes
  · have hs' := (hrec s).mp hs
    exact (hold fd _ (h.known.streams s hs')).trans (h.streams s hs' fd)

/-- The stream of a new pipe. -/
theorem Parent.Ok.add {fd₀ : ℕ} (h : p.Ok) (hfree : p.k.fds.file fd₀ = none)
    (hrec : ∀ s, Recorded st' s ↔ s = fd₀ ∨ Recorded p.st s)
    (hpipes : k'.pipes = p.k.pipes + 1)
    (hrefers : ∀ fd q, RefersTo k' fd q ↔ fd = fd₀ ∧ q = p.k.pipes ∨ RefersTo p.k fd q) :
    Parent.Ok ⟨st', k', Function.update p.pipeOf fd₀ p.k.pipes⟩ := by
  have hother : ∀ s, Recorded p.st s → s ≠ fd₀ := by
    rintro s hs rfl
    obtain ⟨f, hf, -⟩ := (h.streams s hs s).mpr rfl
    rw [hfree] at hf
    cases hf
  refine ⟨⟨fun fd q hq => ?_, fun s hs => ?_⟩, fun s hs fd => ?_⟩
  · change q < k'.pipes
    rw [hpipes]
    rcases (hrefers fd q).mp hq with ⟨-, rfl⟩ | hq
    · exact Nat.lt_succ_self _
    · exact Nat.lt_succ_of_lt (h.known.refers fd q hq)
  · change Function.update p.pipeOf fd₀ p.k.pipes s < k'.pipes
    rw [hpipes]
    rcases (hrec s).mp hs with rfl | hs
    · rw [Function.update_self]
      exact Nat.lt_succ_self _
    · rw [Function.update_of_ne (hother s hs)]
      exact Nat.lt_succ_of_lt (h.known.streams s hs)
  · change RefersTo k' fd (Function.update p.pipeOf fd₀ p.k.pipes s) ↔ _
    rcases (hrec s).mp hs with rfl | hs
    · rw [Function.update_self, hrefers, and_iff_left rfl]
      exact or_iff_left fun hq => Nat.lt_irrefl _ (h.known.refers fd _ hq)
    · have hpipe := h.known.streams s hs
      rw [Function.update_of_ne (hother s hs), hrefers, ← h.streams s hs fd]
      exact or_iff_right fun hq => Nat.ne_of_lt hpipe hq.2

/-- The two ends of the pipe by what the parent does with them. -/
theorem parentEnds_iff (type : List Byte) (pfd : ℕ × ℕ) (fd : ℕ) :
    fd = pfd.1 ∨ fd = pfd.2 ↔ fd = (parentEnds type pfd).1 ∨ fd = (parentEnds type pfd).2 := by
  unfold parentEnds
  split
  · exact Iff.rfl
  · exact or_comm

theorem parentEnds_ne {type : List Byte} {pfd : ℕ × ℕ} (h : pfd.1 ≠ pfd.2) :
    (parentEnds type pfd).1 ≠ (parentEnds type pfd).2 := by
  unfold parentEnds
  split
  · exact h
  · exact h.symm

/-- The parent's end of a new pipe, where the other one has been closed. -/
theorem refersTo_parent {pfd : ℕ × ℕ} {k₁ : Kernel} (h : k.newPipe = some (pfd, k₁)) (fd q : ℕ) :
    RefersTo { k₁ with fds := (k₁.fds.close (parentEnds type pfd).2).2 } fd q ↔
      fd = (parentEnds type pfd).1 ∧ q = k.pipes ∨ RefersTo k fd q := by
  obtain ⟨hne, hi, hj, -⟩ := newPipe_eq_some h
  have hends := @parentEnds_ne type pfd hne
  have hfree : fd = pfd.1 ∨ fd = pfd.2 → ¬ RefersTo k fd q := by
    rintro (rfl | rfl) ⟨f, hf, -⟩
    · rw [hi] at hf
      cases hf
    · rw [hj] at hf
      cases hf
  rw [parentEnds_iff type] at hfree
  rw [refersTo_close, refersTo_newPipe h, parentEnds_iff type]
  constructor
  · rintro ⟨hnot, ⟨hfd, hq⟩ | hold⟩
    · exact .inl ⟨hfd.resolve_right hnot, hq⟩
    · exact .inr hold
  · rintro (⟨rfl, hq⟩ | hold)
    · exact ⟨hends, .inl ⟨.inl rfl, hq⟩⟩
    · exact ⟨fun hfd => hfree (.inr hfd) hold, .inr hold⟩

/-- A popen of the parent that returns a stream. -/
theorem popen_stream {fd₀ : ℕ}
    (h : (popen type st).run (serve a) k = (.ok (.stream fd₀, st'), k')) :
    k.fds.file fd₀ = none ∧ (∀ s, Recorded st' s ↔ s = fd₀ ∨ Recorded st s) ∧
      k'.pipes = k.pipes + 1 ∧
      ∀ fd q, RefersTo k' fd q ↔ fd = fd₀ ∧ q = k.pipes ∨ RefersTo k fd q := by
  rcases popen_run a type st k with ⟨pfd, k₁, hgets, hrun⟩ | ⟨-, st₁, k₁, hrun, -⟩
  · rcases forked_ends (hrun.symm.trans h) with ⟨-, hnull, -⟩ | ⟨-, hexec, -⟩ |
      ⟨hpos, rfl, ⟨-, hstream, rfl⟩ | ⟨-, hnull, -⟩⟩
    · cases hnull
    · cases hexec
    · obtain rfl := Ended.stream.inj hstream
      obtain ⟨-, hi, hj, -⟩ := newPipe_eq_some hgets.pipe
      have hpipes := newPipe_pipes hgets.pipe
      have hmine := (parentEnds_iff type pfd _).mpr (.inl rfl)
      refine ⟨?_, fun s => ?_, hpipes, refersTo_parent hgets.pipe⟩
      · rcases hmine with hmine | hmine
        · rw [hmine, hi]
        · rw [hmine, hj]
      · rw [← recorded_allocated a st s]
        change s < (allocated a st).2.maxfd ∧ 0 < Function.update (allocated a st).2.entry
          (parentEnds type pfd).1 a.fork s ↔ _
        by_cases hs : s = (parentEnds type pfd).1
        · subst hs
          rw [Function.update_self]
          refine iff_of_true ⟨?_, hpos⟩ (.inl rfl)
          have hwithin := hgets.within
          omega
        · rw [Function.update_of_ne hs]
          exact (or_iff_right hs).symm
    · cases hnull
  · cases hrun.symm.trans h

/-- A popen of the parent that returns NULL. -/
theorem popen_null (h : (popen type st).run (serve a) k = (.ok (.null, st'), k')) :
    (∀ s, Recorded st' s ↔ Recorded st s) ∧ k.pipes ≤ k'.pipes ∧
      ∀ fd q, (RefersTo k fd q → RefersTo k' fd q) ∧
        (RefersTo k' fd q → RefersTo k fd q ∨ q = k.pipes ∧ k.pipes < k'.pipes) := by
  rcases popen_run a type st k with ⟨pfd, k₁, hgets, hrun⟩ | ⟨-, st₁, k₁, hrun, hfds, hpipes, hst⟩
  · have hpipes := newPipe_pipes hgets.pipe
    have hlt : k.pipes < k₁.pipes := hpipes ▸ Nat.lt_succ_self _
    rcases forked_ends (hrun.symm.trans h) with ⟨-, -, rfl, rfl⟩ | ⟨-, hexec, -⟩ |
      ⟨-, rfl, ⟨-, hstream, -⟩ | ⟨-, -, rfl⟩⟩
    · refine ⟨recorded_allocated a st, Nat.le_of_lt hlt, fun fd q => ?_⟩
      rw [refersTo_newPipe hgets.pipe]
      exact ⟨.inr, fun h => h.elim (fun h => .inr ⟨h.2, hlt⟩) .inl⟩
    · cases hexec
    · cases hstream
    · refine ⟨recorded_allocated a st, Nat.le_of_lt hlt, fun fd q => ?_⟩
      rw [refersTo_parent hgets.pipe]
      exact ⟨.inr, fun h => h.elim (fun h => .inr ⟨h.2, hlt⟩) .inl⟩
  · obtain ⟨hret, rfl⟩ := Prod.mk.inj (hrun.symm.trans h)
    obtain rfl := (Prod.mk.inj (Outcome.ok.inj hret)).2
    have hsame : ∀ fd q, RefersTo k₁ fd q ↔ RefersTo k fd q := by
      intro fd q
      unfold RefersTo
      rw [hfds]
    refine ⟨fun s => ?_, hpipes, fun fd q => ⟨(hsame fd q).mpr, fun h => .inl ((hsame fd q).mp h)⟩⟩
    rcases hst with rfl | rfl
    · exact Iff.rfl
    · exact recorded_allocated a st s

/-- A pclose that closes takes the stream out of the array. -/
theorem pclose_run {fd₀ : ℕ} {r : Bool} (h : (pclose fd₀ st).run (serve a) k = (.ok (r, st'), k')) :
    st' = st ∧ k' = k ∨ k' = { k with fds := (k.fds.close fd₀).2 } ∧
      ∀ s, Recorded st' s ↔ s ≠ fd₀ ∧ Recorded st s := by
  have hsame : ∀ {k₀ : Kernel}, ((.ok (false, st), k₀) : Outcome (Bool × Statics) × Kernel) =
      (.ok (r, st'), k') → st' = st ∧ k' = k₀ := by
    intro k₀ h
    obtain ⟨hret, rfl⟩ := Prod.mk.inj h
    exact ⟨(Prod.mk.inj (Outcome.ok.inj hret)).2.symm, rfl⟩
  obtain ⟨childpid, maxfd⟩ := st
  cases childpid with
  | none => exact .inl (hsame h)
  | some childpid =>
    unfold pclose at h
    change (if maxfd ≤ fd₀ then _ else if childpid fd₀ = 0 then _ else _ :
      Prog sig (Bool × Statics)).run (serve a) k = _ at h
    by_cases hbeyond : maxfd ≤ fd₀
    · rw [if_pos hbeyond] at h
      exact .inl (hsame h)
    rw [if_neg hbeyond] at h
    by_cases hzero : childpid fd₀ = 0
    · rw [if_pos hzero] at h
      exact .inl (hsame h)
    rw [if_neg hzero, Prog.run_bind, run_close] at h
    obtain ⟨hret, rfl⟩ := Prod.mk.inj h
    obtain rfl := (Prod.mk.inj (Outcome.ok.inj hret)).2
    refine .inr ⟨rfl, fun s => ?_⟩
    change s < maxfd ∧ 0 < Function.update childpid fd₀ 0 s ↔ s ≠ fd₀ ∧ s < maxfd ∧ 0 < childpid s
    by_cases hs : s = fd₀
    · rw [hs, Function.update_self]
      exact iff_of_false (fun h => Int.lt_irrefl 0 h.2) fun h => h.1 rfl
    · rw [Function.update_of_ne hs]
      exact (and_iff_right hs).symm

/-- The pipe of a stream that is closed is of no stream any more. -/
theorem Parent.Ok.remove {fd₀ : ℕ} (h : p.Ok)
    (hrec : ∀ s, Recorded st' s ↔ s ≠ fd₀ ∧ Recorded p.st s) :
    Parent.Ok ⟨st', { p.k with fds := (p.k.fds.close fd₀).2 }, p.pipeOf⟩ := by
  refine ⟨⟨fun fd q hq => ?_, fun s hs => ?_⟩, fun s hs fd => ?_⟩
  · exact h.known.refers fd q ((refersTo_close p.k fd₀ fd q).mp hq).2
  · exact h.known.streams s ((hrec s).mp hs).2
  · obtain ⟨hne, hs⟩ := (hrec s).mp hs
    refine (refersTo_close p.k fd₀ fd _).trans ?_
    rw [h.streams s hs fd]
    refine and_iff_right_of_imp fun hfd => ?_
    rwa [hfd]

/-- What every step keeps. -/
theorem Parent.Ok.step {op : Op} (h : p.Ok) (hstep : p.step op = some p') : p'.Ok := by
  cases op with
  | openFile n =>
    obtain ⟨i, hi, rfl⟩ := Option.map_eq_some_iff.mp hstep
    obtain ⟨hlt, hfree⟩ := Table.lowest_file hi
    refine @Parent.Ok.change p i (some (.other n)) _ h ?_ rfl ?_ (Table.file_set hlt _)
    · intro hrec
      obtain ⟨f, hf, -⟩ := (h.streams i hrec i).mpr rfl
      cases hfree.symm.trans hf
    · intro f hf
      obtain rfl := Option.some.inj hf
      rfl
  | closeFile fd =>
    obtain ⟨hrec, hstep⟩ := Option.ite_none_left_eq_some.mp hstep
    obtain rfl := Option.some.inj hstep
    exact @Parent.Ok.change p fd none _ h hrec rfl nofun (Table.file_close p.k.fds fd)
  | popen type a =>
    rw [Parent.step] at hstep
    split at hstep
    · rename_i fd st k hrun
      obtain rfl := Option.some.inj hstep
      obtain ⟨hfree, hrec, hpipes, hrefers⟩ := popen_stream hrun
      exact h.add hfree hrec hpipes hrefers
    · rename_i st k hrun
      obtain rfl := Option.some.inj hstep
      obtain ⟨hrec, hpipes, hrefers⟩ := popen_null hrun
      refine h.grow hrec hpipes (fun fd q hq => ?_) fun fd q hq => ⟨fun hk => ?_, (hrefers fd q).1⟩
      · rcases (hrefers fd q).2 hq with hold | ⟨rfl, hlt⟩
        · exact Nat.lt_of_lt_of_le (h.known.refers fd q hold) hpipes
        · exact hlt
      · exact ((hrefers fd q).2 hk).resolve_right fun hnew => Nat.ne_of_lt hq hnew.1
    · cases hstep
  | pclose fd a =>
    rw [Parent.step] at hstep
    split at hstep
    · rename_i r st k hrun
      obtain rfl := Option.some.inj hstep
      rcases pclose_run hrun with ⟨rfl, rfl⟩ | ⟨rfl, hrec⟩
      · exact h
      · exact h.remove hrec
    · cases hstep

/-- A parent that has called neither popen nor pclose. -/
def Parent.start (fds : Table File) : Parent := ⟨⟨none, 0⟩, ⟨fds, 0⟩, fun _ => 0⟩

theorem Parent.start_ok {fds : Table File}
    (hfds : ∀ (fd : ℕ) f, fds.file fd = some f → f.pipe = none) : (Parent.start fds).Ok := by
  have hnone : ∀ s, ¬ Recorded (Parent.start fds).st s := fun s hs => Nat.not_lt_zero s hs.1
  refine ⟨⟨?_, fun s hs => absurd hs (hnone s)⟩, fun s hs => absurd hs (hnone s)⟩
  rintro fd q ⟨f, hf, hq⟩
  rw [hfds fd f hf] at hq
  cases hq

/-- In every run of a parent that leaves its streams to pclose, the command of the next popen
has the right descriptors if and only if its standard descriptor is not the number of a stream. -/
theorem streams_child_right {fds : Table File} {ops : List Op}
    (hfds : ∀ (fd : ℕ) f, fds.file fd = some f → f.pipe = none)
    (hrun : steps Parent.step ops (Parent.start fds) = some p)
    (h : (popen type p.st).run (serve a) p.k = (.ok (.exec, st'), k')) :
    ChildRight type p.st p.pipeOf p.k k' ↔ ¬ Recorded p.st (stdOf type) := by
  have hok : p.Ok := steps_induct (fun _ _ _ h hstep => h.step hstep) hrun (Parent.start_ok hfds)
  rw [childRight_of_exec hok.known h]
  refine and_iff_left fun fd _ => ⟨?_, fun hrec => .inl ⟨fd, hrec, ?_⟩⟩
  · rintro ⟨s, hs, hrefers⟩
    rwa [(hok.streams s hs fd).mp hrefers]
  · exact (hok.streams fd hrec fd).mpr rfl

end Apue.Popen
