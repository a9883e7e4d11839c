import Apue.SemSteps

/-!
The semaphore sets over whole runs: when the counter of a set can be trusted, when
sem_close removes only a set that is not in use, and when sem_create survives the removal
of the set it has found.
-/
namespace Apue.Semaph

open Programs

variable {C : Conditions} {s s' : State} {p id : ℕ} {pc : Pc} {x y : SemSet} {e : Event}

/-- What holds in every state that is reached by steps which meet the conditions. -/
theorem State.Inv.of_reaches {P : State → Event → Prop}
    (hlimited : ∀ id, C.limited id → ∀ s e, P s e → s.LimitedAt id)
    (hquiet : C.quiet → ∀ s e, P s e → s.Quiet e) (hspared : C.spared → ∀ s e, P s e → s.Spared e)
    (h : Reaches State.step P State.initial s) : s.Inv C := by
  induction h with
  | start => exact State.Inv.initial C
  | step _ hP hs ih =>
    exact ih.step (fun id hc => hlimited id hc _ _ hP) (fun hc => hquiet hc _ _ hP)
      (fun hc => hspared hc _ _ hP) hs

/-- The lock of a set has one holder. -/
def State.Exclusive (s : State) : Prop :=
  ∀ id p q, (s.proc p).locks = some id → (s.proc q).locks = some id → p = q

/-- A set is initialised once, and its counter goes together with the opens. -/
structure State.Counted (s : State) (id : ℕ) : Prop where
  once : ∀ x, s.set id = some x → 1 ∉ x.log.tail
  count : ∀ x, s.set id = some x → 1 ∈ x.log → x.val 1 + s.opened id = BIGCOUNT

/-- The lock has one holder in every run. The counter of a set can be trusted as long as
there are fewer than BIGCOUNT opens of this set, whatever is done to the others. -/
theorem counted_of_limited :
    (∀ s, Reaches State.step (fun _ _ => True) State.initial s → s.Exclusive) ∧
      ∀ id s, Reaches State.step (fun s _ => s.LimitedAt id) State.initial s → s.Counted id := by
  refine ⟨fun s h id p q hp hq => ?_, fun id s h => ?_⟩
  · have hinv : s.Inv ⟨fun _ => False, False, False⟩ := .of_reaches nofun nofun nofun h
    obtain ⟨x, hx⟩ := (hinv.proc p).live hp
    exact (hinv.lock id x hx).single p q hp hq
  · have hinv : s.Inv ⟨fun j => j = id, False, False⟩ :=
      .of_reaches (fun j hj _ _ hlim => hj ▸ hlim) nofun nofun h
    exact ⟨fun x hx => (hinv.count id x hx).once rfl,
      fun x hx hin => ((hinv.count id x hx).count rfl hin).1⟩

theorem State.limited_of_length (h : (s.opens.length : ℤ) < BIGCOUNT) : s.Limited := by
  intro id
  have hle : s.opened id ≤ s.opens.length := List.countP_le_length
  change (s.opened id : ℤ) < BIGCOUNT
  omega

/-- One process opens a set that another process has created, and exits. -/
theorem counted_of_limited_exit :
    ∃ s : State, s.set 0 ≠ none ∧ s.opens = [(0, 0)] ∧ s.Exclusive ∧ s.Counted 0 := by
  have hrun : (steps (guarded (fun s _ => decide ((s.opens.length : ℤ) < BIGCOUNT)) State.step)
      [.call 0 (.sem_create 7 1), .go 0, .go 0, .go 0, .go 0, .go 0, .go 0,
        .call 1 (.sem_open 7), .go 1, .go 1, .exit 1] State.initial).any
      (fun s => decide ((s.set 0).isSome = true ∧ s.opens = [(0, 0)])) = true := by
    decide +kernel
  obtain ⟨s, hs, hend⟩ := (Option.any_eq_true _ _).mp hrun
  obtain ⟨hset, hopens⟩ := of_decide_eq_true hend
  have hreach : Reaches State.step (fun s _ => s.LimitedAt 0) State.initial s :=
    Reaches.of_steps (fun s _ hc => State.limited_of_length (of_decide_eq_true hc) 0) .start hs
  have hevery : Reaches State.step (fun _ _ => True) State.initial s :=
    Reaches.of_steps (fun _ _ _ => trivial) .start hs
  refine ⟨s, ?_, hopens, counted_of_limited.1 s hevery, counted_of_limited.2 0 s hreach⟩
  intro hnone
  rw [hnone] at hset
  cases hset

/-- The runs of the processes 0 and 1. -/
def State.OfTwo (s : State) : Prop :=
  Reaches State.step (fun _ e => e.process < 2) State.initial s

/-- The set 0 with the key 7 is initialised, and its counter has come down to `n`. -/
structure State.Worn (n : ℕ) (s : State) : Prop where
  idle₀ : s.proc 0 = .idle
  idle₁ : s.proc 1 = .idle
  key : s.key 7 = some 0
  set : ∃ x, s.set 0 = some x ∧ x.val 1 = n ∧ x.val 2 = 0 ∧ x.log = [1, 0]

theorem State.worn_create : ∃ s : State, s.OfTwo ∧ s.Worn 9999 := by
  have hrun : (steps (guarded (fun _ e => decide (e.process < 2)) State.step)
      [.call 0 (.sem_create 7 1), .go 0, .go 0, .go 0, .go 0, .go 0, .go 0] State.initial).any
      (fun s => decide (s.proc 0 = .idle ∧ s.proc 1 = .idle ∧ s.key 7 = some 0 ∧
        (s.set 0).any (fun x => decide (x.val 1 = 9999 ∧ x.val 2 = 0 ∧ x.log = [1, 0])) = true)) =
        true := by
    decide +kernel
  obtain ⟨s, hs, hend⟩ := (Option.any_eq_true _ _).mp hrun
  obtain ⟨hidle₀, hidle₁, hkey, hset⟩ := of_decide_eq_true hend
  obtain ⟨x, hx, hvals⟩ := (Option.any_eq_true _ _).mp hset
  exact ⟨s, Reaches.of_steps (fun s e he => of_decide_eq_true he) .start hs, hidle₀, hidle₁, hkey,
    x, hx, of_decide_eq_true hvals⟩

/-- A process that opens the set once more brings the counter down. -/
theorem State.Worn.open {n : ℕ} (h : s.Worn (n + 1)) (hn : n < 9999) (hreach : s.OfTwo) :
    ∃ s' : State, s'.OfTwo ∧ s'.Worn n := by
  obtain ⟨hidle₀, hidle₁, hkey, x, hx, hcount, hlock, hlog⟩ := h
  have hop : x.semop 0 op_open = .done (x.add 0 ⟨1, -1, true⟩) := by
    have hpos : ¬ x.val 1 + -1 < 0 := by omega
    have hsmall : ¬ SEMVMX < x.val 1 + -1 := by
      rw [hcount, SEMVMX]
      omega
    simp [SemSet.semop, op_open, hpos, hsmall]
  have hcall : s.step (.call 0 (.sem_open 7)) = some (s.move 0 (.openGet 7)) := by
    rw [State.step, if_pos hidle₀]
    rfl
  have hget : (s.move 0 (.openGet 7)).step (.go 0) =
      some ((s.move 0 (.openGet 7)).move 0 (.openCount 0 false)) := by
    simp [State.step, State.next, State.move, hkey]
  have hopen : ((s.move 0 (.openGet 7)).move 0 (.openCount 0 false)).step (.go 0) =
      some { ((s.move 0 (.openGet 7)).move 0 (.openCount 0 false)).change 0 .idle 0
        (x.add 0 ⟨1, -1, true⟩) with opens := (0, 0) :: s.opens } := by
    simp [State.step, State.next, State.move, State.semop, hx, hop]
  refine ⟨_, .step (.step (.step hreach (by decide) hcall) (by decide) hget) (by decide) hopen, ?_, ?_,
    hkey, x.add 0 ⟨1, -1, true⟩, ?_, ?_, ?_, hlog⟩
  · simp [State.change, State.move]
  · simpa [State.change, State.move] using hidle₁
  · simp [State.change]
  · rw [SemSet.add_val, if_pos rfl]
    simp only
    omega
  · simp [hlock]

/-- The counter comes down to zero. -/
theorem State.worn_out (n : ℕ) (hn : n ≤ 9999) : ∃ s : State, s.OfTwo ∧ s.Worn (9999 - n) := by
  induction n with
  | zero => exact State.worn_create
  | succ n ih =>
    obtain ⟨s, hreach, hworn⟩ := ih (by omega)
    rw [show 9999 - n = 9999 - (n + 1) + 1 by omega] at hworn
    exact hworn.open (by omega) hreach

/-- The next sem_create takes the set for a new one. -/
theorem State.Worn.create (h : s.Worn 0) (hreach : s.OfTwo) :
    ∃ s' : State, s'.OfTwo ∧ ∃ x, s'.set 0 = some x ∧ x.log = [1, 0, 1, 0] := by
  obtain ⟨-, hidle₁, hkey, x, hx, hcount, hlock, hlog⟩ := h
  have hop : x.semop 1 op_lock = .done (x.add 1 ⟨2, 1, true⟩) := by
    have hsmall : ¬ SEMVMX < 1 := by decide
    simp [SemSet.semop, op_lock, hlock, hsmall]
  have hzero : (x.add 1 ⟨2, 1, true⟩).val 1 = 0 := by simp [hcount]
  have hbig : ¬ (BIGCOUNT < 0 ∨ SEMVMX < BIGCOUNT) := by decide
  have hone : ¬ ((1 : ℤ) < 0 ∨ SEMVMX < 1) := by decide
  have hcall : s.step (.call 1 (.sem_create 7 1)) = some (s.move 1 (.create 7 1)) := by
    rw [State.step, if_pos hidle₁]
    rfl
  obtain ⟨s₁, hs₁⟩ : ∃ s₁, s₁ = s.move 1 (.create 7 1) := ⟨_, rfl⟩
  have hget : s₁.step (.go 1) = some (s₁.move 1 (.createLock 7 1 0 false)) := by
    simp [hs₁, State.step, State.next, State.semgetCreate, State.move, hkey]
  obtain ⟨s₂, hs₂⟩ : ∃ s₂, s₂ = s₁.move 1 (.createLock 7 1 0 false) := ⟨_, rfl⟩
  have hset₂ : s₂.set 0 = some x := by
    rw [hs₂, hs₁]
    exact hx
  have hlocked : s₂.step (.go 1) =
      some (s₂.change 1 (.createRead 1 0) 0 (x.add 1 ⟨2, 1, true⟩)) := by
    have hpc : s₂.proc 1 = .createLock 7 1 0 false := by
      rw [hs₂]
      exact State.move_proc_self
    simp [State.step, State.next, hpc, State.semop, hset₂, hop]
  obtain ⟨s₃, hs₃⟩ : ∃ s₃, s₃ = s₂.change 1 (.createRead 1 0) 0 (x.add 1 ⟨2, 1, true⟩) := ⟨_, rfl⟩
  have hset₃ : s₃.set 0 = some (x.add 1 ⟨2, 1, true⟩) := by
    rw [hs₃]
    exact State.change_set_self
  have hread : s₃.step (.go 1) = some (s₃.move 1 (.createSet0 1 0)) := by
    have hpc : s₃.proc 1 = .createRead 1 0 := by
      rw [hs₃]
      exact State.change_proc_self
    simp only [State.step, State.next, hpc, hset₃, hzero, if_true]
  obtain ⟨s₄, hs₄⟩ : ∃ s₄, s₄ = s₃.move 1 (.createSet0 1 0) := ⟨_, rfl⟩
  have hset₄ : s₄.set 0 = some (x.add 1 ⟨2, 1, true⟩) := by
    rw [hs₄]
    exact hset₃
  have hfirst : s₄.step (.go 1) =
      some (s₄.change 1 (.createSet1 0) 0 ((x.add 1 ⟨2, 1, true⟩).setval 0 1)) := by
    have hpc : s₄.proc 1 = .createSet0 1 0 := by
      rw [hs₄]
      exact State.move_proc_self
    simp only [State.step, State.next, hpc, State.setval, hset₄, if_neg hone]
  obtain ⟨s₅, hs₅⟩ : ∃ s₅, s₅ = s₄.change 1 (.createSet1 0) 0 ((x.add 1 ⟨2, 1, true⟩).setval 0 1) :=
    ⟨_, rfl⟩
  have hsecond : s₅.step (.go 1) = some (s₅.change 1 (.createEnd 0 false) 0
      (((x.add 1 ⟨2, 1, true⟩).setval 0 1).setval 1 BIGCOUNT)) := by
    have hpc : s₅.proc 1 = .createSet1 0 := by
      rw [hs₅]
      exact State.change_proc_self
    have hset₅ : s₅.set 0 = some ((x.add 1 ⟨2, 1, true⟩).setval 0 1) := by
      rw [hs₅]
      exact State.change_set_self
    simp only [State.step, State.next, hpc, State.setval, hset₅, if_neg hbig]
  have hreach₁ : s₁.OfTwo := .step hreach (by decide) (hs₁ ▸ hcall)
  have hreach₂ : s₂.OfTwo := .step hreach₁ (by decide) (hs₂ ▸ hget)
  have hreach₃ : s₃.OfTwo := .step hreach₂ (by decide) (hs₃ ▸ hlocked)
  have hreach₄ : s₄.OfTwo := .step hreach₃ (by decide) (hs₄ ▸ hread)
  have hreach₅ : s₅.OfTwo := .step hreach₄ (by decide) (hs₅ ▸ hfirst)
  refine ⟨_, .step hreach₅ (by decide) hsecond, _, State.change_set_self, ?_⟩
  rw [SemSet.setval_log, SemSet.setval_log, SemSet.add_log, hlog]

/-- Ten thousand opens by one process wear the counter out, and sem_create of another one
initialises the set again. -/
theorem initialised_twice : ∃ s : State, s.OfTwo ∧ ∃ x, s.set 0 = some x ∧ x.log = [1, 0, 1, 0] := by
  obtain ⟨s, hreach, hworn⟩ := State.worn_out 9999 (Nat.le_refl _)
  exact hworn.create hreach

/-- A step of a process leaves the other processes and the set alone. -/
def State.Leaves (s s' : State) (p id : ℕ) : Prop :=
  (∀ q, q ≠ p → s'.proc q = s.proc q) ∧ (s.set id ≠ none → s'.set id ≠ none)

theorem State.leaves_move : s.Leaves (s.move p pc) p id :=
  ⟨fun _ hq => Function.update_of_ne hq _ _, fun hlive => hlive⟩

theorem State.leaves_exit : s.Leaves (s.exit p pc) p id :=
  ⟨fun _ hq => Function.update_of_ne hq _ _,
    fun hlive hnone => hlive (Option.map_eq_none_iff.mp hnone)⟩

/-- A set is changed or created. -/
theorem State.leaves_update {j : ℕ} (hproc : s'.proc = Function.update s.proc p pc)
    (hset : s'.set = Function.update s.set j (some x)) : s.Leaves s' p id := by
  refine ⟨fun q hq => ?_, fun hlive => ?_⟩
  · rw [hproc, Function.update_of_ne hq]
  · rw [hset]
    by_cases hj : id = j
    · subst hj
      rw [Function.update_self]
      nofun
    · rwa [Function.update_of_ne hj]

theorem State.leaves_semop {fn : Fn} {j : ℕ} {asleep : Bool} {ops : List Sembuf} {sleep : Pc}
    {next : SemSet → State} (hs : s.semop p fn j asleep ops sleep next = some s')
    (hnext : ∀ y, s.Leaves (next y) p id) : s.Leaves s' p id := by
  simp only [State.semop] at hs
  split at hs
  · obtain rfl := Option.some.inj hs
    exact State.leaves_exit
  · split at hs
    · obtain rfl := Option.some.inj hs
      exact hnext _
    · split at hs
      · cases hs
      · obtain rfl := Option.some.inj hs
        exact State.leaves_move
    · obtain rfl := Option.some.inj hs
      exact State.leaves_exit

theorem State.leaves_setval {j num : ℕ} {value : ℤ} :
    s.Leaves (s.setval p j num value pc) p id := by
  simp only [State.setval]
  split
  · exact State.leaves_exit
  · split
    · exact State.leaves_exit
    · exact State.leaves_update rfl rfl

/-- A system call other than the last one of sem_close removes no set. -/
theorem State.leaves_next (hs : s.next p = some s') (hpc : s.proc p ≠ .closeRm id) :
    s.Leaves s' p id := by
  simp only [State.next] at hs
  split at hs
  case h_1 key initval _ =>
    obtain rfl := Option.some.inj hs
    simp only [State.semgetCreate]
    split
    · exact State.leaves_move
    · exact State.leaves_update rfl rfl
  case h_2 =>
    split at hs
    · obtain rfl := Option.some.inj hs
      exact State.leaves_move
    · exact State.leaves_semop hs fun _ => State.leaves_update rfl rfl
  case h_3 =>
    split at hs
    · obtain rfl := Option.some.inj hs
      exact State.leaves_exit
    · obtain rfl := Option.some.inj hs
      exact State.leaves_move
  case h_4 =>
    obtain rfl := Option.some.inj hs
    exact State.leaves_setval
  case h_5 =>
    obtain rfl := Option.some.inj hs
    exact State.leaves_setval
  case h_6 => exact State.leaves_semop hs fun _ => State.leaves_update rfl rfl
  case h_7 =>
    split at hs
    · obtain rfl := Option.some.inj hs
      exact State.leaves_move
    · obtain rfl := Option.some.inj hs
      exact State.leaves_move
  case h_8 => exact State.leaves_semop hs fun _ => State.leaves_update rfl rfl
  case h_9 => exact State.leaves_semop hs fun _ => State.leaves_update rfl rfl
  case h_10 =>
    split at hs
    · obtain rfl := Option.some.inj hs
      exact State.leaves_exit
    · split at hs
      · obtain rfl := Option.some.inj hs
        exact State.leaves_exit
      · split at hs
        · obtain rfl := Option.some.inj hs
          exact State.leaves_move
        · obtain rfl := Option.some.inj hs
          exact State.leaves_move
  case h_11 j hj =>
    obtain rfl := Option.some.inj hs
    have hne : id ≠ j := by
      rintro rfl
      exact hpc hj
    simp only [State.rmid]
    split
    · exact State.leaves_exit
    · refine ⟨fun q hq => Function.update_of_ne hq _ _, fun hlive => ?_⟩
      change Function.update s.set j none id ≠ none
      rwa [Function.update_of_ne hne]
  case h_12 => exact State.leaves_semop hs fun _ => State.leaves_update rfl rfl
  case h_13 => exact State.leaves_semop hs fun _ => State.leaves_update rfl rfl
  all_goals cases hs

theorem State.leaves_begin {c : Call} (hs : s.begin p c = some s') : s.Leaves s' p id := by
  have hsame : s.Leaves s p id := ⟨fun _ _ => rfl, fun hlive => hlive⟩
  cases c with
  | sem_create key initval =>
    simp only [State.begin] at hs
    split at hs
    · obtain rfl := Option.some.inj hs
      exact hsame
    · obtain rfl := Option.some.inj hs
      exact State.leaves_move
  | sem_open key =>
    simp only [State.begin] at hs
    split at hs
    · obtain rfl := Option.some.inj hs
      exact hsame
    · obtain rfl := Option.some.inj hs
      exact State.leaves_move
  | sem_close j =>
    obtain ⟨-, hs⟩ := Option.ite_none_right_eq_some.mp hs
    obtain rfl := Option.some.inj hs
    exact State.leaves_move
  | sem_op j value =>
    simp only [State.begin] at hs
    split at hs
    · obtain rfl := Option.some.inj hs
      exact State.leaves_exit
    · obtain rfl := Option.some.inj hs
      exact State.leaves_move

/-- Only the last system call of sem_close removes a set. -/
theorem State.leaves_step (hs : s.step e = some s')
    (hpc : ∀ p, e = .go p → s.proc p ≠ .closeRm id) : s.Leaves s' e.process id := by
  cases e with
  | call p c =>
    obtain ⟨-, hs⟩ := Option.ite_none_right_eq_some.mp hs
    exact State.leaves_begin hs
  | go p => exact State.leaves_next hs (hpc p rfl)
  | refuse p =>
    simp only [State.step] at hs
    split at hs
    · obtain rfl := Option.some.inj hs
      exact State.leaves_move
    · obtain rfl := Option.some.inj hs
      exact State.leaves_move
    · cases hs
  | exit p =>
    simp only [State.step] at hs
    split at hs
    · cases hs
    · cases hs
    · obtain rfl := Option.some.inj hs
      exact State.leaves_exit

theorem State.removed_by_close (hs : s.step e = some s') (hlive : s.set id ≠ none)
    (hgone : s'.set id = none) : ∃ p, e = .go p ∧ s.proc p = .closeRm id := by
  by_contra hnot
  have hleaves : s.Leaves s' e.process id := State.leaves_step hs fun p he hpc => hnot ⟨p, he, hpc⟩
  exact hleaves.2 hlive hgone

/-- As long as no open is counted between the last two system calls of a sem_close that
removes the set, and there are fewer than BIGCOUNT opens, a set is not removed while it is
open. -/
theorem removed_only_unused (s s' : State) (e : Event) (id : ℕ)
    (h : Reaches State.step (fun s e => s.Limited ∧ s.Quiet e) State.initial s)
    (hs : s.step e = some s') (hlive : s.set id ≠ none) (hgone : s'.set id = none) (q : ℕ) :
    (q, id) ∉ s.opens := by
  have hinv : s.Inv ⟨fun _ => True, True, False⟩ :=
    .of_reaches (fun id _ _ _ hP => hP.1 id) (fun _ _ _ hP => hP.2) nofun h
  obtain ⟨p, -, hpc⟩ := State.removed_by_close hs hlive hgone
  have hok := hinv.proc p
  rw [hpc] at hok
  have hzero := hok.2 trivial trivial
  intro hmem
  have hpos := List.count_pos_iff.mpr hmem
  have hle := State.count_le_opened s q id
  omega

/-- Two processes create a set and close it, and the second close removes it. -/
theorem removed_only_unused_two : ∃ s s' : State, s.set 0 ≠ none ∧ s'.set 0 = none ∧
    ∀ q, (q, 0) ∉ s.opens := by
  have hrun : (steps (guarded (fun s e => decide ((s.opens.length : ℤ) < BIGCOUNT) &&
        match e with
        | .go p => match s.proc p with
          | .openCount _ _ => false
          | _ => true
        | _ => true) State.step)
      [.call 0 (.sem_create 7 1), .go 0, .go 0, .go 0, .go 0, .go 0, .go 0,
        .call 1 (.sem_create 7 1), .go 1, .go 1, .go 1, .go 1,
        .call 0 (.sem_close 0), .go 0, .go 0, .go 0,
        .call 1 (.sem_close 0), .go 1, .go 1] State.initial).any
      (fun s => decide ((s.set 0).isSome = true ∧
        (s.step (.go 1)).any (fun s' => decide ((s'.set 0).isNone = true)) = true)) = true := by
    decide +kernel
  obtain ⟨s, hs, hend⟩ := (Option.any_eq_true _ _).mp hrun
  obtain ⟨hset, hnext⟩ := of_decide_eq_true hend
  obtain ⟨s', hs', hgone⟩ := (Option.any_eq_true _ _).mp hnext
  have hreach : Reaches State.step (fun s e => s.Limited ∧ s.Quiet e) State.initial s := by
    refine Reaches.of_steps (fun s e hc => ?_) .start hs
    obtain ⟨hlen, hnot⟩ := (Bool.and_eq_true _ _).mp hc
    refine ⟨State.limited_of_length (of_decide_eq_true hlen), fun p id asleep he hpc => ?_⟩
    subst he
    simp [hpc] at hnot
  have hlive := Option.isSome_iff_ne_none.mp hset
  have hnone := Option.isNone_iff_eq_none.mp (of_decide_eq_true hgone)
  exact ⟨s, s', hlive, hnone, removed_only_unused s s' (.go 1) 0 hreach hs' hlive hnone⟩

/-- A process opens the set after the last close has read the counter, and the set is
removed under it. -/
theorem removed_in_use : ∃ s s' : State, steps State.step
    [.call 0 (.sem_create 7 1), .go 0, .go 0, .go 0, .go 0, .go 0, .go 0,
      .call 0 (.sem_close 0), .go 0, .go 0, .call 1 (.sem_open 7), .go 1, .go 1] State.initial =
        some s ∧ s.step (.go 0) = some s' ∧ s.set 0 ≠ none ∧ s'.set 0 = none ∧
      (1, 0) ∈ s.opens ∧ s.proc 1 = .idle := by
  have hrun : (steps State.step
      [.call 0 (.sem_create 7 1), .go 0, .go 0, .go 0, .go 0, .go 0, .go 0,
        .call 0 (.sem_close 0), .go 0, .go 0, .call 1 (.sem_open 7), .go 1, .go 1]
        State.initial).any
      (fun s => decide (((s.set 0).isSome = true ∧ (1, 0) ∈ s.opens ∧ s.proc 1 = .idle) ∧
        (s.step (.go 0)).any (fun s' => decide ((s'.set 0).isNone = true)) = true)) = true := by
    decide +kernel
  obtain ⟨s, hs, hend⟩ := (Option.any_eq_true _ _).mp hrun
  obtain ⟨⟨hset, hopens, hidle⟩, hnext⟩ := of_decide_eq_true hend
  obtain ⟨s', hs', hgone⟩ := (Option.any_eq_true _ _).mp hnext
  exact ⟨s, s', hs, hs', Option.isSome_iff_ne_none.mp hset,
    Option.isNone_iff_eq_none.mp (of_decide_eq_true hgone), hopens, hidle⟩

/-- What sem_create can rely on: it does not end because its set was removed, it goes back
to its semget if that happens, it works on a set that exists once it has the lock, and the
set that it returns exists and is initialised. -/
structure State.Survives (s : State) : Prop where
  alive : ∀ p errno, s.proc p = .failed .create errno → errno = .ERANGE
  again : ∀ p key initval id asleep, s.proc p = .createLock key initval id asleep →
    s.set id = none → s.step (.go p) = some (s.move p (.create key initval))
  lives : ∀ p id, (s.proc p).locks = some id → s.set id ≠ none
  returns : ∀ p id asleep s', s.proc p = .createEnd id asleep → s.step (.go p) = some s' →
    s'.proc p = .idle → (p, id) ∈ s'.opens ∧ ∃ x, s'.set id = some x ∧ 0 ∈ x.log ∧ 1 ∈ x.log

/-- As long as no set is removed while a sem_create sleeps on its lock, sem_create survives
every sem_close. -/
theorem create_survives (s : State) (h : Reaches State.step State.Spared State.initial s) :
    s.Survives := by
  have hinv : s.Inv ⟨fun _ => False, False, True⟩ := .of_reaches nofun nofun (fun _ _ _ hP => hP) h
  refine ⟨fun p errno hpc => ?_, fun p key initval id asleep hpc hnone => ?_, fun p id hlocks => ?_,
    fun p id asleep s' hpc hs hidle => ?_⟩
  · have hok := hinv.proc p
    rw [hpc] at hok
    exact hok trivial
  · have hok := hinv.proc p
    rw [hpc] at hok
    have hawake : State.gone asleep = .EINVAL := by
      cases asleep with
      | false => rfl
      | true => exact absurd hnone (hok trivial rfl)
    simp only [State.step, State.next, hpc]
    rw [if_pos ⟨hnone, hawake⟩]
  · obtain ⟨x, hx⟩ := (hinv.proc p).live hlocks
    simp [hx]
  · have hok := hinv.proc p
    rw [hpc] at hok
    obtain ⟨x, hx, hin⟩ := hok
    have hzero := (hinv.count id x hx).order hin
    simp only [State.step, State.next, hpc, State.semop, hx] at hs
    split at hs
    case h_1 y hy =>
      obtain ⟨-, rfl⟩ := SemSet.semop_endcreate hy
      obtain rfl := Option.some.inj hs
      exact ⟨List.mem_cons_self, _, Function.update_self .., hzero, hin⟩
    · split at hs
      · cases hs
      · obtain rfl := Option.some.inj hs
        rw [State.move_proc_self] at hidle
        cases hidle
    · obtain rfl := Option.some.inj hs
      rw [State.exit_proc_self] at hidle
      cases hidle

/-- A step of the process 0 or 1 that removes no set. -/
def State.harmless (s : State) (e : Event) : Bool :=
  decide (e.process < 2) && match e with
    | .go p => match s.proc p with
      | .closeRm _ => false
      | _ => true
    | _ => true

theorem State.not_closeRm_of_harmless (h : s.harmless e = true) (p id : ℕ) (he : e = .go p) :
    s.proc p ≠ .closeRm id := by
  subst he
  intro hpc
  simp [State.harmless, hpc] at h

theorem State.spared_of_harmless {events : List Event} {s₀ : State}
    (h : steps (guarded State.harmless State.step) events s₀ = some s)
    (h₀ : Reaches State.step State.Spared State.initial s₀ ∧ ∀ q, 2 ≤ q → s₀.proc q = .idle) :
    Reaches State.step State.Spared State.initial s ∧ ∀ q, 2 ≤ q → s.proc q = .idle := by
  refine steps_induct (P := fun s => Reaches State.step State.Spared State.initial s ∧
    ∀ q, 2 ≤ q → s.proc q = .idle) (fun s e s' hs hs' => ?_) h h₀
  obtain ⟨hharmless, hs'⟩ := Option.ite_none_right_eq_some.mp hs'
  have hpc := State.not_closeRm_of_harmless hharmless
  refine ⟨.step hs.1 (fun p id he hrm => absurd hrm (hpc p id he)) hs', fun q hq => ?_⟩
  have hprocess : e.process < 2 :=
    of_decide_eq_true ((Bool.and_eq_true _ _).mp hharmless).1
  have hleaves : s.Leaves s' e.process 0 := State.leaves_step hs' fun p he => hpc p 0 he
  rw [hleaves.1 q (by omega)]
  exact hs.2 q hq

/-- A set is removed between the semget and the semop of a sem_create, which creates it
again. -/
theorem create_survives_removal : ∃ s : State, s.opens = [(1, 1)] ∧ s.set 0 = none ∧
    s.Survives := by
  have hrun : (steps (guarded State.harmless State.step) [.call 0 (.sem_create 7 1), .go 0, .go 0,
      .go 0, .go 0, .go 0, .go 0, .call 1 (.sem_create 7 1), .go 1, .call 0 (.sem_close 0), .go 0,
      .go 0] State.initial).any (fun s => decide (s.proc 0 = .closeRm 0 ∧
        s.proc 1 = .createLock 7 1 0 false ∧ (s.step (.go 0)).any (fun s₁ => decide (
        (steps (guarded State.harmless State.step)
          [.go 1, .go 1, .go 1, .go 1, .go 1, .go 1, .go 1] s₁).any (fun s' =>
          decide (s'.opens = [(1, 1)] ∧ (s'.set 0).isNone = true)) = true)) = true)) = true := by
    decide +kernel
  obtain ⟨s, hs, hend⟩ := (Option.any_eq_true _ _).mp hrun
  obtain ⟨hpc₀, hpc₁, hend⟩ := of_decide_eq_true hend
  obtain ⟨s₁, hs₁, hend⟩ := (Option.any_eq_true _ _).mp hend
  obtain ⟨s', hs', hend⟩ := (Option.any_eq_true _ _).mp (of_decide_eq_true hend)
  obtain ⟨hopens, hgone⟩ := of_decide_eq_true hend
  obtain ⟨hreach, hidle⟩ := State.spared_of_harmless hs ⟨.start, fun _ _ => rfl⟩
  have hspared : s.Spared (.go 0) := by
    intro p id he hpc q key initval hq
    rcases Nat.lt_or_ge q 2 with hlt | hge
    · rcases Nat.le_one_iff_eq_zero_or_eq_one.mp (Nat.le_of_lt_succ hlt) with rfl | rfl
      · rw [hpc₀] at hq
        cases hq
      · rw [hpc₁] at hq
        cases hq
    · rw [hidle q hge] at hq
      cases hq
  have hreach' : Reaches State.step State.Spared State.initial s' := by
    refine Reaches.of_steps (fun s e he p id hgo hrm => ?_) (.step hreach hspared hs₁) hs'
    exact absurd hrm (State.not_closeRm_of_harmless he p id hgo)
  exact ⟨s', hopens, Option.isNone_iff_eq_none.mp hgone, create_survives s' hreach'⟩

/-- The close removes the set while a sem_create sleeps on its lock. -/
theorem create_fails : ∃ s : State, steps State.step
    [.call 0 (.sem_create 7 1), .go 0, .go 0, .go 0, .go 0, .go 0, .go 0,
      .call 0 (.sem_close 0), .go 0, .call 1 (.sem_create 7 1), .go 1, .go 1, .go 0, .go 0, .go 1]
      State.initial = some s ∧ s.proc 1 = .failed .create .EIDRM := by
  have hrun : (steps State.step
      [.call 0 (.sem_create 7 1), .go 0, .go 0, .go 0, .go 0, .go 0, .go 0,
        .call 0 (.sem_close 0), .go 0, .call 1 (.sem_create 7 1), .go 1, .go 1, .go 0, .go 0,
        .go 1] State.initial).any (fun s => decide (s.proc 1 = .failed .create .EIDRM)) = true := by
    decide +kernel
  obtain ⟨s, hs, hend⟩ := (Option.any_eq_true _ _).mp hrun
  exact ⟨s, hs, of_decide_eq_true hend⟩

end Apue.Semaph
