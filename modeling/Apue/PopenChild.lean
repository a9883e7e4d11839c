import Apue.PopenRuns

/-!
The descriptors of the command that popen starts. The child makes its end of the pipe its
standard input or output and then closes the descriptors of all streams that were opened
before, which it takes from childpid by their numbers. Where the number of the standard
descriptor is itself in the array, the child closes what it has just opened.
-/
namespace Apue.Popen

open Programs Descriptors Decimal

variable {a : Answers} {type : List Byte} {st st' : Statics} {k k' : Kernel} {pipeOf : ℕ → ℕ}

/-- The descriptor refers to a pipe. -/
def RefersTo (k : Kernel) (fd pipe : ℕ) : Prop := ∃ f, k.fds.file fd = some f ∧ f.pipe = some pipe

/-- The descriptor refers to the pipe of a stream that popen has opened before; `pipeOf` is the
pipe of the stream of a number. -/
def RefersToStream (st : Statics) (pipeOf : ℕ → ℕ) (k : Kernel) (fd : ℕ) : Prop :=
  ∃ s, Recorded st s ∧ RefersTo k fd (pipeOf s)

/-- The descriptors of the command are right: `k` is the parent before the call, and `k'` the
child in front of execl. -/
structure ChildRight (type : List Byte) (st : Statics) (pipeOf : ℕ → ℕ) (k k' : Kernel) :
    Prop where
  standard : k'.fds.file (stdOf type : ℕ) = some (endOf type k.pipes)
  only : ∀ fd : ℕ, fd ≠ stdOf type → ¬ RefersTo k' fd k.pipes
  closed : ∀ fd, ¬ RefersToStream st pipeOf k' fd
  others : ∀ fd : ℕ, fd ≠ stdOf type → ¬ RefersToStream st pipeOf k fd →
    k'.fds.file fd = k.fds.file fd

/-- All pipes that the parent knows of have been made before. -/
structure Known (st : Statics) (pipeOf : ℕ → ℕ) (k : Kernel) : Prop where
  refers : ∀ fd p, RefersTo k fd p → p < k.pipes
  streams : ∀ fd, Recorded st fd → pipeOf fd < k.pipes

/-- The descriptors of a run that has come to execl. -/
theorem exec_file (h : (popen type st).run (serve a) k = (.ok (.exec, st'), k')) (fd : ℕ) :
    (Recorded st fd → k'.fds.file fd = none) ∧ (¬ Recorded st fd →
      k'.fds.file fd = if fd = stdOf type then some (endOf type k.pipes) else k.fds.file fd) := by
  rcases popen_run a type st k with ⟨pfd, k₁, hgets, hrun⟩ | ⟨-, st₁, k₁, hrun, -⟩
  · have hchild : (child type pfd (allocated a st).2).run (serve a) k₁ = (.ok (), k') := by
      rcases forked_ends (hrun.symm.trans h) with ⟨-, hnull, -⟩ | ⟨-, -, -, hchild⟩ |
        ⟨-, -, ⟨-, hstream, -⟩ | ⟨-, hnull, -⟩⟩
      · cases hnull
      · exact hchild
      · cases hstream
      · cases hnull
    obtain ⟨fds, hrun', hfds⟩ := @run_child a k type pfd.1 pfd.2 k₁ hgets.pipe (allocated a st).2
    obtain rfl := (Prod.mk.inj (hrun'.symm.trans hchild)).2
    have hrec := recorded_allocated a st fd
    refine ⟨fun hyes => ?_, fun hno => ?_⟩
    · exact (hfds fd).trans (if_pos (hrec.mpr hyes))
    · exact (hfds fd).trans (if_neg (mt hrec.mp hno))
  · cases hrun.symm.trans h

/-- The descriptors of the command are right except for the two cases of the loop. -/
theorem childRight_of_exec (hknown : Known st pipeOf k)
    (h : (popen type st).run (serve a) k = (.ok (.exec, st'), k')) :
    ChildRight type st pipeOf k k' ↔ ¬ Recorded st (stdOf type) ∧
      ∀ fd : ℕ, fd ≠ stdOf type →
        (RefersToStream st pipeOf k fd → Recorded st fd) ∧
        (Recorded st fd → RefersToStream st pipeOf k fd ∨ k.fds.file fd = none) := by
  have hfile := exec_file h
  constructor
  · intro hright
    have hstd : ¬ Recorded st (stdOf type) := by
      intro hrec
      cases ((hfile _).1 hrec).symm.trans hright.standard
    refine ⟨hstd, fun fd hfd => ⟨fun hstream => ?_, fun hrec => ?_⟩⟩
    · by_contra hrec
      refine hright.closed fd ?_
      obtain ⟨s, hs, f, hf, hp⟩ := hstream
      refine ⟨s, hs, f, ?_, hp⟩
      rw [(hfile fd).2 hrec, if_neg hfd, hf]
    · by_contra hnot
      obtain ⟨hstream, hopen⟩ := not_or.mp hnot
      exact hopen ((hright.others fd hfd hstream).symm.trans ((hfile fd).1 hrec))
  · rintro ⟨hstd, hothers⟩
    have hstandard : k'.fds.file (stdOf type : ℕ) = some (endOf type k.pipes) := by
      rw [(hfile _).2 hstd, if_pos rfl]
    -- what another descriptor refers to in the child, it refers to in the parent
    have hsame : ∀ fd f, fd ≠ stdOf type → k'.fds.file (fd : ℕ) = some f →
        ¬ Recorded st fd ∧ k.fds.file fd = some f := by
      intro fd f hfd hf
      have hrec : ¬ Recorded st fd := fun hrec => by cases ((hfile fd).1 hrec).symm.trans hf
      refine ⟨hrec, ?_⟩
      rwa [(hfile fd).2 hrec, if_neg hfd] at hf
    refine ⟨hstandard, ?_, ?_, ?_⟩
    · rintro fd hfd ⟨f, hf, hp⟩
      exact absurd (hknown.refers fd _ ⟨f, (hsame fd f hfd hf).2, hp⟩) (Nat.lt_irrefl _)
    · rintro fd ⟨s, hs, f, hf, hp⟩
      by_cases hfd : fd = stdOf type
      · subst hfd
        obtain rfl := Option.some.inj (hstandard.symm.trans hf)
        have hpipe : k.pipes = pipeOf s := by
          unfold endOf at hp
          split at hp
          · exact Option.some.inj hp
          · exact Option.some.inj hp
        exact absurd (hknown.streams s hs) (hpipe ▸ Nat.lt_irrefl _)
      · obtain ⟨hrec, hf'⟩ := hsame fd f hfd hf
        exact hrec ((hothers fd hfd).1 ⟨s, hs, f, hf', hp⟩)
    · intro fd hfd hstream
      by_cases hrec : Recorded st fd
      · rcases (hothers fd hfd).2 hrec with hstream' | hclosed
        · exact absurd hstream' hstream
        · rw [(hfile fd).1 hrec, hclosed]
      · rw [(hfile fd).2 hrec, if_neg hfd]

/-- The exact condition under which the command has the right descriptors. -/
theorem child_right_iff (hknown : Known st pipeOf k)
    (h : (popen type st).run (serve a) k = (.ok (.exec, st'), k')) :
    ChildRight type st pipeOf k k' ↔ ¬ Recorded st (stdOf type) ∧
      ∀ fd : ℕ, fd ≠ stdOf type →
        (RefersToStream st pipeOf k fd → Recorded st fd) ∧
        (Recorded st fd → RefersToStream st pipeOf k fd ∨ k.fds.file fd = none) :=
  childRight_of_exec hknown h

/-- A parent without a standard input, whose stream for reading has taken its number. -/
def streamAtZero : Kernel :=
  ⟨[some (.readEnd 0), some (.other 0), some (.other 0), none, none, none], 1⟩

def recordedAtZero : Statics := ⟨some (Function.update (fun _ => 0) 0 100), 6⟩

/-- The answers in the child. -/
def inChild : Answers := ⟨6, true, true, 0, true⟩

example : (popen [114] ⟨none, 0⟩).run (serve ⟨6, true, true, 100, true⟩)
    ⟨[none, some (.other 0), some (.other 0), none, none, none], 0⟩ =
      (.ok (.stream 0, recordedAtZero), streamAtZero) := rfl

theorem recordedAtZero_iff (s : ℕ) : Recorded recordedAtZero s ↔ s = 0 := by
  have hentry : recordedAtZero.entry s = Function.update (fun _ => (0 : ℤ)) 0 100 s := rfl
  unfold Recorded
  rw [hentry]
  by_cases hs : s = 0
  · subst hs
    exact iff_of_true ⟨by decide, by decide⟩ rfl
  · rw [Function.update_of_ne hs]
    exact iff_of_false (fun h => absurd h.2 (by decide)) hs

theorem refersTo_streamAtZero (fd p : ℕ) : RefersTo streamAtZero fd p ↔ fd = 0 ∧ p = 0 := by
  constructor
  · rintro ⟨f, hf, hp⟩
    match fd, hf with
    | 0, hf =>
      obtain rfl := Option.some.inj hf
      exact ⟨rfl, (Option.some.inj hp).symm⟩
    | 1, hf =>
      obtain rfl := Option.some.inj hf
      cases hp
    | 2, hf =>
      obtain rfl := Option.some.inj hf
      cases hp
    | 3, hf => cases hf
    | 4, hf => cases hf
    | 5, hf => cases hf
    | fd + 6, hf => exact absurd (Table.lt_of_file hf) (Nat.not_lt_of_le (Nat.le_add_left 6 fd))
  · rintro ⟨rfl, rfl⟩
    exact ⟨.readEnd 0, rfl, rfl⟩

theorem streamAtZero_known : Known recordedAtZero (fun _ => 0) streamAtZero := by
  refine ⟨fun fd p h => ?_, fun _ _ => Nat.one_pos⟩
  rw [((refersTo_streamAtZero fd p).mp h).2]
  exact Nat.one_pos

/-- The child of a popen for reading keeps what it has opened. -/
theorem child_right_reading : ChildRight [114] recordedAtZero (fun _ => 0) streamAtZero
    ((popen [114] recordedAtZero).run (serve inChild) streamAtZero).2 := by
  refine (@child_right_iff inChild [114] recordedAtZero recordedAtZero streamAtZero _ _
    streamAtZero_known rfl).mpr ?_
  refine ⟨fun hrec => ?_, fun fd _ => ⟨fun h => ?_, fun hrec => .inl ⟨fd, hrec, ?_⟩⟩⟩
  · exact absurd ((recordedAtZero_iff _).mp hrec) (by decide)
  · obtain ⟨s, -, hrefers⟩ := h
    exact (recordedAtZero_iff fd).mpr ((refersTo_streamAtZero fd 0).mp hrefers).1
  · exact (refersTo_streamAtZero fd 0).mpr ⟨(recordedAtZero_iff fd).mp hrec, rfl⟩

/-- The child of a popen for writing closes its standard input. -/
theorem not_child_right : ¬ ∀ (a : Answers) (type : List Byte) (st st' : Statics) (k k' : Kernel)
    (pipeOf : ℕ → ℕ), Known st pipeOf k →
    (∀ s, Recorded st s → ∀ fd, RefersTo k fd (pipeOf s) ↔ fd = s) →
    (popen type st).run (serve a) k = (.ok (.exec, st'), k') →
    ChildRight type st pipeOf k k' := by
  intro h
  have hright := h inChild [119] recordedAtZero _ streamAtZero _ (fun _ => 0)
    streamAtZero_known ?_ rfl
  · exact absurd hright.standard (by decide)
  · intro s hs fd
    rw [refersTo_streamAtZero, (recordedAtZero_iff s).mp hs]
    exact and_iff_left rfl

end Apue.Popen
