import Apue.PopenRuns

/-!
What a popen that returns NULL leaves behind. Until it has its pipe it undoes what it has done,
but when fork fails both ends of the pipe stay open, and when fdopen fails one of them does.
-/
namespace Apue.Popen

open Programs Descriptors Decimal

variable {a : Answers} {type : List Byte} {st st' : Statics} {k k' : Kernel}

/-- If popen returns NULL, the descriptors and the recorded children are as they were. -/
def NoTrace (a : Answers) (type : List Byte) (st : Statics) (k : Kernel) : Prop :=
  ∀ st' k', (popen type st).run (serve a) k = (.ok (.null, st'), k') →
    k'.fds = k.fds ∧ ∀ fd, st'.entry fd = st.entry fd

/-- A new pipe is seen in the table as long as one of its ends is open. -/
theorem newPipe_ne {pfd : ℕ × ℕ} {k₁ : Kernel} (h : k.newPipe = some (pfd, k₁)) :
    k₁.fds ≠ k.fds ∧ (k₁.fds.close (parentEnds type pfd).2).2 ≠ k.fds := by
  obtain ⟨hne, hi, hj, -, -, -, hfile⟩ := newPipe_eq_some h
  have hread := hfile pfd.1
  have hwrite := hfile pfd.2
  rw [if_neg hne, if_pos rfl] at hread
  rw [if_pos rfl] at hwrite
  constructor
  · intro heq
    rw [heq, hj] at hwrite
    cases hwrite
  · unfold parentEnds
    intro heq
    split at heq
    · have hclosed := Table.file_close k₁.fds pfd.2 pfd.1
      rw [heq, hi, if_neg hne, hread] at hclosed
      cases hclosed
    · have hclosed := Table.file_close k₁.fds pfd.1 pfd.2
      rw [heq, hj, if_neg hne.symm, hwrite] at hclosed
      cases hclosed

/-- When a popen that fails leaves no trace. -/
theorem no_trace_iff (a : Answers) (type : List Byte) (st : Statics) (k : Kernel) :
    NoTrace a type st k ↔ ∀ pfd k₁, GetsPipe a type st k pfd k₁ →
      0 ≤ a.fork ∧ (0 < a.fork → a.fdopen = true) := by
  constructor
  · intro htrace pfd k₁ hgets
    rcases popen_run a type st k with ⟨pfd', k₁', hgets', hrun⟩ | ⟨hnot, -⟩
    · obtain ⟨rfl, rfl⟩ := Prod.mk.inj (Option.some.inj (hgets'.pipe.symm.trans hgets.pipe))
      obtain ⟨hboth, hone⟩ := @newPipe_ne type k pfd' k₁' hgets.pipe
      constructor
      · by_contra hneg
        rcases forked_run a type pfd' (allocated a st).2 k₁' with
          ⟨-, hrun'⟩ | ⟨hzero, -⟩ | ⟨hpos, -⟩
        · exact hboth (htrace _ _ (hrun.trans hrun')).1
        · omega
        · omega
      · intro hpos
        have hrun' := hrun.trans (forked_parent hpos pfd')
        by_contra hopen
        rw [if_neg hopen] at hrun'
        exact hone (htrace _ _ hrun').1
    · exact absurd hgets (hnot pfd k₁)
  · intro hok st' k' h
    rcases popen_run a type st k with ⟨pfd, k₁, hgets, hrun⟩ | ⟨-, st₁, k₁, hrun, hfds, -, hst⟩
    · obtain ⟨hfork, hopen⟩ := hok pfd k₁ hgets
      rcases forked_ends (hrun.symm.trans h) with ⟨hneg, -⟩ | ⟨-, hexec, -⟩ |
        ⟨hpos, -, ⟨-, hstream, -⟩ | ⟨hclosed, -⟩⟩
      · omega
      · cases hexec
      · cases hstream
      · rw [hopen hpos] at hclosed
        cases hclosed
    · obtain ⟨hret, rfl⟩ := Prod.mk.inj (hrun.symm.trans h)
      obtain rfl := (Prod.mk.inj (Outcome.ok.inj hret)).2
      refine ⟨hfds, fun fd => ?_⟩
      rcases hst with rfl | rfl
      · rfl
      · rw [entry_allocated]

/-- A process with three open files, and a fork that fails. -/
theorem not_no_trace_fork : ¬ ∀ a type st k, NoTrace a type st k := by
  intro h
  have htrace := h ⟨6, true, true, -1, true⟩ [114] ⟨none, 0⟩
    ⟨[some (.other 0), some (.other 0), some (.other 0), none, none, none], 0⟩
  exact absurd (htrace _ _ rfl).1 (by decide)

end Apue.Popen
