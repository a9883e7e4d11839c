import Apue.PopenModel

/-!
Runs of popen. It either gets a pipe and forks, or it returns NULL and leaves what it found.
The child then has its end of the pipe as its standard descriptor and nothing else of the pipe,
and closes the descriptors that are recorded; the parent closes the other end.
-/
namespace Apue.Popen

open Programs Descriptors Decimal

variable {a : Answers} {type : List Byte} {st : Statics} {k k' : Kernel}

theorem run_close (a : Answers) (fd : ℕ) (k : Kernel) :
    (close fd).run (serve a) k = (.ok (), { k with fds := (k.fds.close fd).2 }) := rfl

/-- The child's end of the pipe is its standard descriptor, and there is no other one of the
pipe. -/
theorem run_takeEnd {mine theirs std : ℕ} {f : File} (hmine : k.fds.file mine = some f)
    (hne : mine ≠ theirs) (hstd : std < k.fds.length) :
    ∃ fds : Table File,
      (takeEnd mine theirs std).run (serve a) k = (.ok (), { k with fds := fds }) ∧
      fds.length = k.fds.length ∧ ∀ fd : ℕ, fds.file fd =
        if fd = std then some f else if fd = mine ∨ fd = theirs then none else k.fds.file fd := by
  have hmine' : (k.fds.close theirs).2.file mine = some f := by
    rw [Table.file_close, if_neg hne, hmine]
  have hstd' : std < (k.fds.close theirs).2.length := by rwa [Table.length_close]
  unfold takeEnd
  by_cases hsame : mine = std
  · subst hsame
    rw [if_neg (not_not.mpr rfl)]
    refine ⟨_, rfl, Table.length_close _ _, fun fd => ?_⟩
    rw [Table.file_close]
    by_cases hfd : fd = mine
    · rw [if_pos hfd, hfd, if_neg hne, hmine]
    · simp only [hfd, if_false, false_or]
  · rw [if_pos hsame]
    refine ⟨_, rfl, ?_, fun fd => ?_⟩
    · refine (Table.length_close _ _).trans ?_
      exact (Table.length_dup2 _ _ _).trans (Table.length_close _ _)
    · change Table.file (Table.close (Table.dup2 (k.fds.close theirs).2 mine std).2 mine).2 fd = _
      rw [Table.file_close, Table.file_dup2 hmine' hstd', Table.file_close]
      by_cases hfd : fd = mine
      · rw [if_pos hfd, if_neg fun h => hsame (hfd.symm.trans h), if_pos (.inl hfd)]
      · simp only [hfd, if_false, false_or]

/-- The loop closes what is in the array. -/
theorem run_closeStreams (childpid : ℕ → ℤ) (left i : ℕ) (k : Kernel) :
    ∃ fds : Table File, (closeStreams childpid left i).run (serve a) k =
        (.ok (), { k with fds := fds }) ∧
      ∀ fd : ℕ, fds.file fd =
        if i ≤ fd ∧ fd < i + left ∧ 0 < childpid fd then none else k.fds.file fd := by
  induction left generalizing i k with
  | zero => exact ⟨k.fds, rfl, fun fd => (if_neg (by omega)).symm⟩
  | succ left ih =>
    unfold closeStreams
    by_cases hpid : 0 < childpid i
    · obtain ⟨fds, hrun, hfile⟩ := ih (i + 1) { k with fds := (k.fds.close i).2 }
      refine ⟨fds, ?_, fun fd => ?_⟩
      · rw [if_pos hpid, Prog.run_bind, run_close]
        exact hrun
      · rw [hfile, Table.file_close]
        by_cases hfd : fd = i
        · rw [hfd, if_neg (by omega), if_pos rfl, if_pos ⟨le_refl i, by omega, hpid⟩]
        · rw [if_neg hfd]
          refine if_congr ?_ rfl rfl
          rw [show i + 1 + left = i + (left + 1) by omega,
            show i + 1 ≤ fd ↔ i ≤ fd by omega]
    · obtain ⟨fds, hrun, hfile⟩ := ih (i + 1) k
      refine ⟨fds, ?_, fun fd => ?_⟩
      · rw [if_neg hpid]
        exact hrun
      · rw [hfile]
        refine if_congr ?_ rfl rfl
        rw [show i + 1 + left = i + (left + 1) by omega]
        refine ⟨fun h => ⟨by omega, h.2⟩, fun h => ⟨?_, h.2⟩⟩
        have hne : i ≠ fd := by
          rintro rfl
          exact hpid h.2.2
        omega

/-- What the first part of popen leaves. -/
def allocated (a : Answers) (st : Statics) : Bool × Statics :=
  match st.childpid with
  | some _ => (true, st)
  | none => if a.calloc then (true, ⟨some fun _ => 0, a.openMax⟩) else (false, ⟨none, a.openMax⟩)

theorem run_allocate (a : Answers) (st : Statics) (k : Kernel) :
    (allocate st).run (serve a) k = (.ok (allocated a st), k) := by
  unfold allocate allocated
  cases st.childpid with
  | some childpid => rfl
  | none =>
    change (if a.calloc = true then _ else _ : Prog sig (Bool × Statics)).run (serve a) k = _
    cases a.calloc with
    | true => rfl
    | false => rfl

theorem entry_allocated (a : Answers) (st : Statics) : (allocated a st).2.entry = st.entry := by
  unfold allocated
  split
  · rfl
  · rename_i hnone
    funext fd
    unfold Statics.entry
    rw [hnone]
    cases a.calloc with
    | true => rfl
    | false => rfl

/-- The two descriptors of a new pipe were free. -/
theorem newPipe_eq_some {i j : ℕ} (h : k.newPipe = some ((i, j), k')) :
    i ≠ j ∧ k.fds.file i = none ∧ k.fds.file j = none ∧ i < k.fds.length ∧ j < k.fds.length ∧
      k'.fds.length = k.fds.length ∧ ∀ fd : ℕ, k'.fds.file fd =
        if fd = j then some (.writeEnd k.pipes)
        else if fd = i then some (.readEnd k.pipes) else k.fds.file fd := by
  unfold Kernel.newPipe at h
  obtain ⟨i', hi, h⟩ := Option.bind_eq_some_iff.mp h
  obtain ⟨j', hj, h⟩ := Option.bind_eq_some_iff.mp h
  obtain ⟨hpair, rfl⟩ := Prod.mk.inj (Option.some.inj h)
  obtain ⟨rfl, rfl⟩ := Prod.mk.inj hpair
  obtain ⟨hlt, hfree⟩ := Table.lowest_file hi
  obtain ⟨hlt', hfree'⟩ := Table.lowest_file hj
  rw [Table.file_set hlt] at hfree'
  have hne : j' ≠ i' := by
    rintro rfl
    rw [if_pos rfl] at hfree'
    cases hfree'
  rw [if_neg hne] at hfree'
  rw [List.length_set] at hlt'
  refine ⟨hne.symm, hfree, hfree', hlt, hlt', ?_, fun fd => ?_⟩
  · exact List.length_set.trans List.length_set
  · change Table.file (List.set _ _ _) _ = _
    rw [Table.file_set (by rwa [List.length_set]), Table.file_set hlt]

theorem newPipe_pipes {pfd : ℕ × ℕ} (h : k.newPipe = some (pfd, k')) :
    k'.pipes = k.pipes + 1 := by
  unfold Kernel.newPipe at h
  obtain ⟨i, -, h⟩ := Option.bind_eq_some_iff.mp h
  obtain ⟨j, -, h⟩ := Option.bind_eq_some_iff.mp h
  obtain rfl := (Prod.mk.inj (Option.some.inj h)).2
  rfl

/-- The stream of the number `fd` is still recorded. -/
def Recorded (st : Statics) (fd : ℕ) : Prop := fd < st.maxfd ∧ 0 < st.entry fd

/-- The standard descriptor of the command, and what it has to refer to. -/
def stdOf (type : List Byte) : ℕ := if typeReads type then STDOUT_FILENO else STDIN_FILENO

def endOf (type : List Byte) (pipe : ℕ) : File :=
  if typeReads type then .writeEnd pipe else .readEnd pipe

theorem recorded_allocated (a : Answers) (st : Statics) (fd : ℕ) :
    fd < (allocated a st).2.maxfd ∧ 0 < (allocated a st).2.entry fd ↔ Recorded st fd := by
  rw [entry_allocated]
  unfold allocated Recorded
  split
  · rfl
  · rename_i hnone
    have hzero : st.entry fd = 0 := by
      unfold Statics.entry
      rw [hnone]
    rw [hzero]
    exact iff_of_false (fun h => absurd h.2 (Int.lt_irrefl 0)) fun h => absurd h.2 (Int.lt_irrefl 0)

/-- The child closes the streams after it has opened its standard descriptor. -/
theorem run_child {type : List Byte} {i j : ℕ} {k₁ : Kernel} (hpipe : k.newPipe = some ((i, j), k₁))
    (st : Statics) :
    ∃ fds : Table File, (child type (i, j) st).run (serve a) k₁ = (.ok (), { k₁ with fds := fds }) ∧
      ∀ fd : ℕ, fds.file fd = if fd < st.maxfd ∧ 0 < st.entry fd then none
        else if fd = stdOf type then some (endOf type k.pipes) else k.fds.file fd := by
  obtain ⟨hne, hi, hj, hilt, hjlt, hlength, hfile⟩ := newPipe_eq_some hpipe
  -- the end that the child takes, and the one that it closes
  have htake : ∀ mine theirs std f, (mine = i ∧ theirs = j ∨ mine = j ∧ theirs = i) →
      k₁.fds.file (mine : ℕ) = some f → std < 2 → ∃ fds : Table File,
      (takeEnd mine theirs std).run (serve a) k₁ = (.ok (), { k₁ with fds := fds }) ∧
      ∀ fd : ℕ, fds.file fd = if fd = std then some f else k.fds.file fd := by
    intro mine theirs std f hends hf hstd
    obtain ⟨fds, hrun, -, hfds⟩ := @run_takeEnd a k₁ mine theirs std f hf (by omega) (by omega)
    refine ⟨fds, hrun, fun fd => ?_⟩
    rw [hfds, hfile]
    by_cases hfd : fd = i ∨ fd = j
    · have hfree : k.fds.file fd = none := by
        rcases hfd with rfl | rfl
        · exact hi
        · exact hj
      rw [if_pos (show fd = mine ∨ fd = theirs by omega), hfree]
    · rw [if_neg (show ¬ (fd = mine ∨ fd = theirs) by omega), if_neg (show ¬ fd = j by omega),
        if_neg (show ¬ fd = i by omega)]
  have hends : k₁.fds.file i = some (.readEnd k.pipes) ∧
      k₁.fds.file j = some (.writeEnd k.pipes) := by
    rw [hfile, hfile, if_neg hne, if_pos rfl, if_pos rfl]
    exact ⟨rfl, rfl⟩
  unfold child stdOf endOf
  cases typeReads type with
  | true =>
    obtain ⟨fds, hrun, hfds⟩ := htake j i STDOUT_FILENO _ (.inr ⟨rfl, rfl⟩) hends.2 (by decide)
    obtain ⟨fds', hrun', hfds'⟩ := @run_closeStreams a st.entry st.maxfd 0 { k₁ with fds := fds }
    refine ⟨fds', ?_, fun fd => ?_⟩
    · rw [if_pos rfl, Prog.run_bind, hrun]
      exact hrun'
    · rw [hfds', hfds, Nat.zero_add]
      simp only [Nat.zero_le, true_and, if_true]
  | false =>
    obtain ⟨fds, hrun, hfds⟩ := htake i j STDIN_FILENO _ (.inl ⟨rfl, rfl⟩) hends.1 (by decide)
    obtain ⟨fds', hrun', hfds'⟩ := @run_closeStreams a st.entry st.maxfd 0 { k₁ with fds := fds }
    refine ⟨fds', ?_, fun fd => ?_⟩
    · rw [if_neg Bool.false_ne_true, Prog.run_bind, hrun]
      exact hrun'
    · rw [hfds', hfds, Nat.zero_add]
      simp only [Nat.zero_le, true_and, Bool.false_eq_true, if_false]

/-- A pipe of which both ends are closed again leaves nothing. -/
theorem close_newPipe {i j : ℕ} (h : k.newPipe = some ((i, j), k')) :
    (Table.close (Table.close k'.fds i).2 j).2 = k.fds := by
  obtain ⟨hne, hi, hj, -, -, hlength, hfile⟩ := newPipe_eq_some h
  refine Table.ext_file ?_ fun fd => ?_
  · rw [Table.length_close, Table.length_close, hlength]
  · rw [Table.file_close, Table.file_close, hfile]
    split
    · rename_i hfd
      rw [hfd, hj]
    · split
      · rename_i hfd
        rw [hfd, hi]
      · rfl

theorem serve_pipe {made : Option ((ℕ × ℕ) × Kernel)}
    (h : (if a.pipe = true then k.newPipe else none) = made) :
    serve a .pipe k = (made.map Prod.fst, (made.map Prod.snd).getD k) := by
  subst h
  rw [serve]
  cases (if a.pipe = true then k.newPipe else none) with
  | none => rfl
  | some made => rfl

/-- popen gets a pipe within childpid. -/
structure GetsPipe (a : Answers) (type : List Byte) (st : Statics) (k : Kernel) (pfd : ℕ × ℕ)
    (k₁ : Kernel) : Prop where
  accepted : typeRefused type = false
  memory : (allocated a st).1 = true
  made : a.pipe = true
  pipe : k.newPipe = some (pfd, k₁)
  within : pfd.1 < (allocated a st).2.maxfd ∧ pfd.2 < (allocated a st).2.maxfd

/-- popen either gets a pipe and forks, or it returns NULL and leaves what it found. -/
theorem popen_run (a : Answers) (type : List Byte) (st : Statics) (k : Kernel) :
    (∃ pfd k₁, GetsPipe a type st k pfd k₁ ∧
      (popen type st).run (serve a) k = (forked type pfd (allocated a st).2).run (serve a) k₁) ∨
    ((∀ pfd k₁, ¬ GetsPipe a type st k pfd k₁) ∧
      ∃ st' k', (popen type st).run (serve a) k = (.ok (.null, st'), k') ∧
        k'.fds = k.fds ∧ k.pipes ≤ k'.pipes ∧ (st' = st ∨ st' = (allocated a st).2)) := by
  generalize hout : (popen type st).run (serve a) k = out
  rw [popen] at hout
  by_cases htype : typeRefused type = true
  · rw [if_pos htype] at hout
    obtain rfl := hout
    refine .inr ⟨fun _ _ h => ?_, st, k, rfl, rfl, le_refl _, .inl rfl⟩
    rw [h.accepted] at htype
    cases htype
  rw [if_neg htype, Prog.run_bind, run_allocate] at hout
  obtain ⟨ok, st₁, hfirst⟩ : ∃ ok st₁, allocated a st = (ok, st₁) := ⟨_, _, rfl⟩
  rw [hfirst] at hout ⊢
  change (if ok = false then _ else _ : Prog sig (Ended × Statics)).run (serve a) k = out at hout
  by_cases hmemory : ok = false
  · rw [if_pos hmemory] at hout
    obtain rfl := hout
    refine .inr ⟨fun _ _ h => ?_, _, k, rfl, rfl, le_refl _, .inr rfl⟩
    have hok := h.memory
    rw [hfirst, hmemory] at hok
    cases hok
  rw [if_neg hmemory] at hout
  change (match ((serve a .pipe k).1 : Option (ℕ × ℕ)) with
    | none => _
    | some pfd => (if _ ∨ _ then _ else _ : Prog sig (Ended × Statics))).run (serve a)
      (serve a .pipe k).2 = out at hout
  cases hpipe : (if a.pipe = true then k.newPipe else none) with
  | none =>
    rw [serve_pipe hpipe] at hout
    obtain rfl := hout
    refine .inr ⟨fun pfd k₁ h => ?_, _, k, rfl, rfl, le_refl _, .inr rfl⟩
    rw [if_pos h.made, h.pipe] at hpipe
    cases hpipe
  | some made =>
    obtain ⟨pfd, k₁⟩ := made
    obtain ⟨hmade, hnew⟩ := Option.ite_none_right_eq_some.mp hpipe
    rw [serve_pipe hpipe] at hout
    change (if st₁.maxfd ≤ pfd.1 ∨ st₁.maxfd ≤ pfd.2 then _ else _ :
      Prog sig (Ended × Statics)).run (serve a) k₁ = out at hout
    by_cases hbeyond : st₁.maxfd ≤ pfd.1 ∨ st₁.maxfd ≤ pfd.2
    · rw [if_pos hbeyond] at hout
      obtain rfl := hout
      refine .inr ⟨fun pfd' k₁' h => ?_, _, _, rfl, close_newPipe hnew, ?_, .inr rfl⟩
      · have hwithin := h.within
        obtain ⟨rfl, -⟩ := Prod.mk.inj (Option.some.inj (h.pipe.symm.trans hnew))
        rw [hfirst] at hwithin
        change pfd'.1 < st₁.maxfd ∧ pfd'.2 < st₁.maxfd at hwithin
        omega
      · change k.pipes ≤ k₁.pipes
        rw [newPipe_pipes hnew]
        exact Nat.le_succ _
    · rw [if_neg hbeyond] at hout
      refine .inl ⟨pfd, k₁, ⟨Bool.eq_false_iff.mpr htype, ?_, hmade, hnew, ?_⟩, hout.symm⟩
      · rw [hfirst]
        exact Bool.eq_true_of_not_eq_false hmemory
      · rw [hfirst]
        change pfd.1 < st₁.maxfd ∧ pfd.2 < st₁.maxfd
        omega

/-- What becomes of the call when popen has its pipe. -/
theorem forked_run (a : Answers) (type : List Byte) (pfd : ℕ × ℕ) (st : Statics) (k : Kernel) :
    (a.fork < 0 ∧ (forked type pfd st).run (serve a) k = (.ok (.null, st), k)) ∨
    (a.fork = 0 ∧ (forked type pfd st).run (serve a) k =
      (child type pfd st >>= fun _ => .ret (.exec, st)).run (serve a) k) ∨
    (0 < a.fork ∧ (forked type pfd st).run (serve a) k =
      (if typeReads type then openStream pfd.1 pfd.2 a.fork st
        else openStream pfd.2 pfd.1 a.fork st).run (serve a) k) := by
  generalize hout : (forked type pfd st).run (serve a) k = out
  rw [forked] at hout
  change (if a.fork < 0 then _ else if a.fork = 0 then _ else _ :
    Prog sig (Ended × Statics)).run (serve a) k = out at hout
  by_cases hneg : a.fork < 0
  · rw [if_pos hneg] at hout
    exact .inl ⟨hneg, hout.symm⟩
  · rw [if_neg hneg] at hout
    by_cases hzero : a.fork = 0
    · rw [if_pos hzero] at hout
      exact .inr (.inl ⟨hzero, hout.symm⟩)
    · rw [if_neg hzero] at hout
      exact .inr (.inr ⟨by omega, hout.symm⟩)

theorem openStream_run (a : Answers) (mine theirs : ℕ) (pid : ℤ) (st : Statics) (k : Kernel) :
    (openStream mine theirs pid st).run (serve a) k =
      (.ok (if a.fdopen = true then
          (.stream mine, { st with childpid := some (Function.update st.entry mine pid) })
        else (.null, st)), { k with fds := (k.fds.close theirs).2 }) := by
  rw [openStream, Prog.run_bind, run_close]
  change (if a.fdopen = true then _ else _ : Prog sig (Ended × Statics)).run (serve a) _ = _
  cases a.fdopen with
  | true => rfl
  | false => rfl

/-- The end of the pipe that the parent keeps, and the other one. -/
def parentEnds (type : List Byte) (pfd : ℕ × ℕ) : ℕ × ℕ :=
  if typeReads type then (pfd.1, pfd.2) else (pfd.2, pfd.1)

/-- The run of the parent from fork on. -/
theorem forked_parent (hfork : 0 < a.fork) (pfd : ℕ × ℕ) :
    (forked type pfd st).run (serve a) k =
      (.ok (if a.fdopen = true then
          (.stream (parentEnds type pfd).1,
            { st with childpid := some (Function.update st.entry (parentEnds type pfd).1 a.fork) })
        else (.null, st)), { k with fds := (k.fds.close (parentEnds type pfd).2).2 }) := by
  rcases forked_run a type pfd st k with ⟨hneg, -⟩ | ⟨hzero, -⟩ | ⟨-, hrun⟩
  · omega
  · omega
  · rw [hrun]
    unfold parentEnds
    split
    · exact openStream_run a pfd.1 pfd.2 a.fork st k
    · exact openStream_run a pfd.2 pfd.1 a.fork st k

/-- How the part from fork on can end. -/
theorem forked_ends {pfd : ℕ × ℕ} {e : Ended} {st' : Statics}
    (h : (forked type pfd st).run (serve a) k = (.ok (e, st'), k')) :
    (a.fork < 0 ∧ e = .null ∧ st' = st ∧ k' = k) ∨
    (a.fork = 0 ∧ e = .exec ∧ st' = st ∧ (child type pfd st).run (serve a) k = (.ok (), k')) ∨
    (0 < a.fork ∧ k' = { k with fds := (k.fds.close (parentEnds type pfd).2).2 } ∧
      (a.fdopen = true ∧ e = .stream (parentEnds type pfd).1 ∧
        st' = { st with
          childpid := some (Function.update st.entry (parentEnds type pfd).1 a.fork) } ∨
      a.fdopen = false ∧ e = .null ∧ st' = st)) := by
  rcases forked_run a type pfd st k with ⟨hneg, hrun⟩ | ⟨hzero, hrun⟩ | ⟨hpos, -⟩
  · obtain ⟨hret, rfl⟩ := Prod.mk.inj (hrun.symm.trans h)
    obtain ⟨rfl, rfl⟩ := Prod.mk.inj (Outcome.ok.inj hret)
    exact .inl ⟨hneg, rfl, rfl, rfl⟩
  · have hchild := hrun.symm.trans h
    rw [Prog.run_bind] at hchild
    cases hrest : (child type pfd st).run (serve a) k with
    | mk o k'' =>
      rw [hrest] at hchild
      cases o with
      | ok u =>
        obtain ⟨hret, rfl⟩ := Prod.mk.inj hchild
        obtain ⟨rfl, rfl⟩ := Prod.mk.inj (Outcome.ok.inj hret)
        exact .inr (.inl ⟨hzero, rfl, rfl, rfl⟩)
      | aborted msg => cases hchild
      | diverged => cases hchild
  · obtain ⟨hret, rfl⟩ := Prod.mk.inj ((forked_parent hpos pfd).symm.trans h)
    have hvalue := Outcome.ok.inj hret
    refine .inr (.inr ⟨hpos, rfl, ?_⟩)
    split at hvalue
    · rename_i hopen
      obtain ⟨rfl, rfl⟩ := Prod.mk.inj hvalue
      exact .inl ⟨hopen, rfl, rfl⟩
    · rename_i hopen
      obtain ⟨rfl, rfl⟩ := Prod.mk.inj hvalue
      exact .inr ⟨Bool.eq_false_iff.mpr hopen, rfl, rfl⟩

end Apue.Popen
