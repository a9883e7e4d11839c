import Apue.Dup2Model

/-!
What the two versions of mydup2 leave in the descriptor table. As long as the target is a
slot of the table they find it after the free slots below it, and leave what dup2 leaves.
The target that is just beyond the table passes the tests too: both versions fill the table
then, and only the recursive one clears it again.
-/
namespace Apue.Dup2

open Programs Descriptors

variable {F : Type} {t : Table F} {f : F} {fd : ℤ} {i n fuel : ℕ}

/-- The program goes on with the answer to its call. -/
theorem run_call {α : Type} {c : Call} {k : c.Ret → Prog sig α} {r : c.Ret} {t' : Table F}
    (h : serve c t = (r, t')) :
    Prog.run serve (@Prog.call sig α c k) t = (k r).run serve t' := by
  rw [Prog.run, h]

theorem serve_dup (ht : t.file fd = some f) (hi : t.lowest = some i) :
    serve (.dup fd) t = ((i : ℤ), t.set i (some f)) :=
  Table.dup_open ht hi

theorem serve_dup_full (hi : t.lowest = none) : serve (.dup fd) t = ((-1 : ℤ), t) :=
  Table.dup_full hi

theorem serve_dup_closed (ht : t.file fd = none) : serve (.dup fd) t = ((-1 : ℤ), t) :=
  Table.dup_closed ht

/-- How a close answers. -/
def closed (r : Bool × Table F) : Option Errno × Table F :=
  (if r.1 then none else some .ebadf, r.2)

theorem serve_close (ht : t[i]? = some (some f)) :
    serve (.close i) t = ((none : Option Errno), t.set i none) :=
  congrArg closed (Table.close_open ht)

theorem serve_close_closed (ht : t.file fd = none) :
    serve (.close fd) t = (some Errno.ebadf, t) :=
  congrArg closed (Table.close_closed ht)

/-- A slot that is taken for a while. -/
theorem serve_close_taken (hi : t[i]? = some none) (f : F) :
    serve (.close i) (t.set i (some f)) = ((none : Option Errno), t) := by
  have hlt := (List.getElem?_eq_some_iff.mp hi).1
  rw [serve_close (List.getElem?_set_self hlt), List.set_set, Table.set_none hi]

/-- The number of free slots below the target, which goes down with each dup. -/
def below (t : Table F) (n : ℕ) : ℕ := Table.free (t.take n)

theorem below_set (hi : t[i]? = some none) (hin : i < n) (f : F) :
    below (t.set i (some f)) n + 1 = below t n := by
  unfold below
  rw [List.take_set]
  refine Table.free_set ?_ f
  rw [List.getElem?_take_of_lt hin]
  exact hi

theorem below_le (t : Table F) (n : ℕ) : below t n ≤ n :=
  Nat.le_trans List.countP_le_length (by rw [List.length_take]; exact Nat.min_le_left n _)

/-- The lowest free slot is not above a free slot. -/
theorem lowest_le (hi : t.lowest = some i) (hn : t[n]? = some none) : i ≤ n := by
  by_contra hlt
  exact (Table.lowest_eq_some.mp hi).2 n (Nat.lt_of_not_le hlt) hn

theorem exists_lowest (hn : t[n]? = some none) : ∃ i, t.lowest = some i := by
  cases hi : t.lowest with
  | none => exact absurd hn (Table.lowest_eq_none.mp hi n)
  | some i => exact ⟨i, rfl⟩

/-- The table after the target has been found with a slot below it taken. -/
theorem close_below (hi : t[i]? = some none) (hin : i < n) (f g : F) :
    serve (.close i) ((t.set i (some f)).set n (some g)) =
      ((none : Option Errno), t.set n (some g)) := by
  rw [List.set_comm _ _ (Nat.ne_of_lt hin)]
  refine serve_close_taken ?_ f
  rw [List.getElem?_set_ne (Nat.ne_of_gt hin)]
  exact hi

/-- The recursion finds the target and closes the descriptors below it again. -/
theorem recur_run (ht : t.file fd = some f) (hn : t[n]? = some none) (hfuel : below t n < fuel) :
    (dup fd >>= fun fd => recur fuel fd n).run serve t = (.ok (n : ℤ), t.set n (some f)) := by
  induction fuel generalizing t fd with
  | zero => exact absurd hfuel (Nat.not_lt_zero _)
  | succ fuel ih =>
    obtain ⟨i, hi⟩ := exists_lowest hn
    obtain ⟨hfree, -⟩ := Table.lowest_eq_some.mp hi
    have hle := lowest_le hi hn
    have hlt := (List.getElem?_eq_some_iff.mp hfree).1
    refine (run_call (serve_dup ht hi)).trans ?_
    change (recur (fuel + 1) i n).run serve (t.set i (some f)) = _
    rw [recur, if_neg (by omega)]
    by_cases hin : i = n
    · rw [if_pos (by rw [hin]), hin]
      rfl
    · have hbelow : i < n := Nat.lt_of_le_of_ne hle hin
      have hcount := below_set hfree hbelow f
      have hrest := @ih (t.set i (some f)) i (Table.file_eq_some.mpr (List.getElem?_set_self hlt))
        (by rw [List.getElem?_set_ne (Nat.ne_of_lt hbelow)]; exact hn) (by omega)
      rw [if_neg (by omega), Prog.run_bind, hrest]
      exact run_call (close_below hfree hbelow f f)

/-- Without a slot for the target the recursion runs out of descriptors and closes them all
again. -/
theorem recur_fails (ht : t.file fd = some f) (hn : t.length ≤ n) (hfuel : t.free < fuel) :
    (dup fd >>= fun fd => recur fuel fd n).run serve t = (.ok (-1), t) := by
  induction fuel generalizing t fd with
  | zero => exact absurd hfuel (Nat.not_lt_zero _)
  | succ fuel ih =>
    cases hi : t.lowest with
    | none =>
      refine (run_call (serve_dup_full hi)).trans ?_
      change (recur (fuel + 1) (-1) n).run serve t = _
      rw [recur, if_pos rfl]
      rfl
    | some i =>
      obtain ⟨hfree, -⟩ := Table.lowest_eq_some.mp hi
      have hlt := (List.getElem?_eq_some_iff.mp hfree).1
      have hcount := Table.free_set hfree f
      refine (run_call (serve_dup ht hi)).trans ?_
      change (recur (fuel + 1) i n).run serve (t.set i (some f)) = _
      have hrest := @ih (t.set i (some f)) i (Table.file_eq_some.mpr (List.getElem?_set_self hlt))
        (by rw [List.length_set]; exact hn) (by omega)
      rw [recur, if_neg (by omega), if_neg (by omega), Prog.run_bind, hrest]
      exact run_call (serve_close_taken hfree f)

theorem push_room {stack : List ℤ} (h : stack.length < n) (tmpfd : ℤ) :
    push n stack tmpfd = .ret (tmpfd :: stack) :=
  if_pos (by omega)

theorem fill_step {newfd r : ℤ} {t' : Table F} (stack : List ℤ) (h : serve (.dup fd) t = (r, t')) :
    (fill (fuel + 1) newfd stack fd).run serve t =
      (if r = newfd then (.ret (some stack) : Prog sig (Option (List ℤ)))
        else if r = -1 then .ret none
        else push newfd stack r >>= fun stack => fill fuel newfd stack r).run serve t' :=
  run_call h

/-- The first loop finds the target, and what it pushed is what the second loop closes. -/
theorem fill_run (stack : List ℤ) (ht : t.file fd = some f) (hn : t[n]? = some none)
    (hfuel : below t n < fuel) (hstack : stack.length + below t n ≤ n) :
    ∃ pushed full, (fill fuel n stack fd).run serve t = (.ok (some (pushed ++ stack)), full) ∧
      ∀ rest, (unwind (pushed ++ rest)).run serve full =
        (unwind rest).run serve (t.set n (some f)) := by
  induction fuel generalizing t fd stack with
  | zero => exact absurd hfuel (Nat.not_lt_zero _)
  | succ fuel ih =>
    obtain ⟨i, hi⟩ := exists_lowest hn
    obtain ⟨hfree, -⟩ := Table.lowest_eq_some.mp hi
    have hle := lowest_le hi hn
    have hlt := (List.getElem?_eq_some_iff.mp hfree).1
    by_cases hin : i = n
    · refine ⟨[], t.set n (some f), ?_, fun rest => rfl⟩
      rw [fill_step stack (serve_dup ht hi), if_pos (by rw [hin]), hin]
      rfl
    · have hbelow : i < n := Nat.lt_of_le_of_ne hle hin
      have hcount := below_set hfree hbelow f
      obtain ⟨pushed, full, hrun, hunwind⟩ := @ih (t.set i (some f)) i ((i : ℤ) :: stack)
        (Table.file_eq_some.mpr (List.getElem?_set_self hlt))
        (by rw [List.getElem?_set_ne (Nat.ne_of_lt hbelow)]; exact hn) (by omega)
        (by rw [List.length_cons]; omega)
      refine ⟨pushed ++ [(i : ℤ)], full, ?_, fun rest => ?_⟩
      · rw [fill_step stack (serve_dup ht hi), if_neg (by omega), if_neg (by omega),
          push_room (by omega), Prog.ret_bind, hrun, List.append_assoc, List.singleton_append]
      · rw [List.append_assoc, List.singleton_append, hunwind]
        exact run_call (close_below hfree hbelow f f)

/-- The table in which every free slot has been taken for a file. -/
def filled (f : F) (t : Table F) : Table F := t.map fun slot => some (slot.getD f)

theorem filled_set (hi : t[i]? = some none) (f : F) : filled f (t.set i (some f)) = filled f t := by
  unfold filled
  rw [List.map_set]
  refine List.ext_getElem? fun j => ?_
  by_cases hj : j = i
  · subst hj
    rw [List.getElem?_set_self (by
      rw [List.length_map]; exact (List.getElem?_eq_some_iff.mp hi).1), List.getElem?_map, hi]
    rfl
  · rw [List.getElem?_set_ne (Ne.symm hj)]

theorem filled_full (hi : t.lowest = none) (f : F) : filled f t = t := by
  refine (List.map_congr_left fun slot hslot => ?_).trans (List.map_id t)
  obtain ⟨j, hj⟩ := List.mem_iff_getElem?.mp hslot
  cases slot with
  | none => exact absurd hj (Table.lowest_eq_none.mp hi j)
  | some g => rfl

theorem filled_ne (hi : t[i]? = some none) (f : F) : filled f t ≠ t := by
  intro hsame
  have hslot : (filled f t)[i]? = some (some f) := by
    rw [filled, List.getElem?_map, hi]
    rfl
  rw [hsame, hi] at hslot
  cases hslot

/-- Without a slot for the target the first loop fails with a full table. -/
theorem fill_fails (stack : List ℤ) (ht : t.file fd = some f) (hn : t.length ≤ n)
    (hfuel : t.free < fuel) (hstack : stack.length + t.free ≤ n) :
    (fill fuel n stack fd).run serve t = (.ok none, filled f t) := by
  induction fuel generalizing t fd stack with
  | zero => exact absurd hfuel (Nat.not_lt_zero _)
  | succ fuel ih =>
    cases hi : t.lowest with
    | none =>
      rw [fill_step stack (serve_dup_full hi), if_neg (by omega), if_pos rfl, filled_full hi]
      rfl
    | some i =>
      obtain ⟨hfree, -⟩ := Table.lowest_eq_some.mp hi
      have hlt := (List.getElem?_eq_some_iff.mp hfree).1
      have hcount := Table.free_set hfree f
      have hrest := @ih (t.set i (some f)) i ((i : ℤ) :: stack)
        (Table.file_eq_some.mpr (List.getElem?_set_self hlt)) (by rw [List.length_set]; exact hn)
        (by omega) (by rw [List.length_cons]; omega)
      rw [fill_step stack (serve_dup ht hi), if_neg (by omega), if_neg (by omega),
        push_room (by omega), Prog.ret_bind, hrest, filled_set hfree]

theorem iterate_run (ht : t.file fd = some f) (hn : t[n]? = some none) (hfuel : n < fuel) :
    (iterate fuel fd n).run serve t = (.ok (n : ℤ), t.set n (some f)) := by
  have hle := below_le t n
  obtain ⟨pushed, full, hrun, hunwind⟩ := @fill_run _ _ _ _ n fuel [] ht hn (by omega)
    (by rw [List.length_nil]; omega)
  have hclosed := hunwind []
  rw [List.append_nil] at hrun hclosed
  rw [iterate, Prog.run_bind, hrun]
  dsimp only
  rw [Prog.run_bind, hclosed]
  rfl

theorem iterate_fails (ht : t.file fd = some f) (hfuel : t.length < fuel) :
    (iterate fuel fd t.length).run serve t = (.ok (-1), filled f t) := by
  have hle : t.free ≤ t.length := List.countP_le_length
  have hrun := @fill_fails _ t _ _ t.length fuel [] ht (Nat.le_refl _) (by omega)
    (by rw [List.length_nil]; omega)
  rw [iterate, Prog.run_bind, hrun]
  rfl

/-- The tests in common: the descriptor that the first dup takes is closed again. -/
theorem mydup2With_run (duplicate : Prog sig ℤ) {newfd : ℤ} (ht : t.file fd = some f)
    (hi : t.lowest = some i) :
    (mydup2With duplicate t.length fd newfd).run serve t =
      if newfd < 0 ∨ (t.length : ℤ) < newfd then (.ok (-1), t)
      else if newfd = fd then (.ok fd, t)
      else duplicate.run serve (t.close newfd).2 := by
  obtain ⟨hfree, -⟩ := Table.lowest_eq_some.mp hi
  refine (run_call (serve_dup ht hi)).trans ?_
  change (if (i : ℤ) < 0 then (.ret (-1) : Prog sig ℤ) else close i >>= fun r => _).run serve
    (t.set i (some f)) = _
  rw [if_neg (by omega)]
  refine (run_call (serve_close_taken hfree f)).trans ?_
  change (if newfd < 0 ∨ (t.length : ℤ) < newfd then (.ret (-1) : Prog sig ℤ)
    else if newfd = fd then .ret fd else close newfd >>= fun r => _).run serve t = _
  by_cases hrange : newfd < 0 ∨ (t.length : ℤ) < newfd
  · rw [if_pos hrange, if_pos hrange]
    rfl
  · rw [if_neg hrange, if_neg hrange]
    by_cases hsame : newfd = fd
    · rw [if_pos hsame, if_pos hsame]
      rfl
    · rw [if_neg hsame, if_neg hsame]
      cases htarget : t.file newfd with
      | none =>
        rw [Table.close_closed htarget]
        exact run_call (serve_close_closed htarget)
      | some g =>
        obtain ⟨k, rfl, hk⟩ := Table.exists_of_file htarget
        rw [Table.close_open hk]
        exact run_call (serve_close hk)

theorem mydup2With_fails (duplicate : Prog sig ℤ) {newfd : ℤ}
    (h : t.file fd = none ∨ t.lowest = none) :
    (mydup2With duplicate t.length fd newfd).run serve t = (.ok (-1), t) := by
  have hcall : serve (.dup fd) t = ((-1 : ℤ), t) := h.elim serve_dup_closed serve_dup_full
  exact run_call hcall

/-- The table in which the target has been closed. -/
theorem close_target (ht : t.file fd = some f) (hne : (n : ℤ) ≠ fd) (hlt : n < t.length) :
    (t.close n).2[n]? = some none ∧ Table.file (t.close n).2 fd = some f ∧
      (t.close n).2.set n (some f) = t.set n (some f) := by
  cases htarget : t.file n with
  | none =>
    rw [Table.close_closed htarget]
    refine ⟨?_, ht, rfl⟩
    rw [Table.file_natCast, List.getElem?_eq_getElem hlt] at htarget
    rw [List.getElem?_eq_getElem hlt]
    exact congrArg some htarget
  | some g =>
    rw [Table.close_open (Table.file_eq_some.mp htarget)]
    obtain ⟨k, rfl, hk⟩ := Table.exists_of_file ht
    refine ⟨List.getElem?_set_self hlt, Table.file_eq_some.mpr ?_, List.set_set ..⟩
    rw [List.getElem?_set_ne (by omega)]
    exact hk

theorem dup2_eq (ht : t.file fd = some f) (hne : (n : ℤ) ≠ fd) (hlt : n < t.length) :
    t.dup2 fd n = ((n : ℤ), t.set n (some f)) := by
  rw [Table.dup2, ht]
  dsimp only
  rw [if_neg (by omega), if_neg hne, Int.toNat_natCast]

/-- With a target in the table both versions return it and leave the table of dup2. -/
theorem settles_target (ht : t.file fd = some f) (hi : t.lowest = some i) (hlt : n < t.length) :
    Settles serve (fun fuel => mydup2 fuel t.length fd n) t (.ok (n : ℤ), (t.dup2 fd n).2) ∧
    Settles serve (fun fuel => mydup2Recur fuel t.length fd n) t
      (.ok (n : ℤ), (t.dup2 fd n).2) := by
  have hin : ¬ ((n : ℤ) < 0 ∨ (t.length : ℤ) < n) := by omega
  by_cases hsame : (n : ℤ) = fd
  · have hdup2 : t.dup2 fd n = ((n : ℤ), t) := by
      rw [Table.dup2, ht]
      dsimp only
      rw [if_neg (by omega), if_pos hsame]
    have hrun : ∀ duplicate : Prog sig ℤ,
        (mydup2With duplicate t.length fd n).run serve t = (.ok (n : ℤ), t) := by
      intro duplicate
      rw [mydup2With_run duplicate ht hi, if_neg hin, if_pos hsame, hsame]
    rw [hdup2]
    exact ⟨⟨0, fun fuel _ => hrun _⟩, ⟨0, fun fuel _ => hrun _⟩⟩
  · obtain ⟨hfree', ht', hset⟩ := close_target ht hsame (by omega)
    have hbelow := below_le (t.close n).2 n
    rw [dup2_eq ht hsame (by omega), ← hset]
    refine ⟨⟨n + 1, fun fuel hfuel => ?_⟩, ⟨n + 1, fun fuel hfuel => ?_⟩⟩
    · refine (mydup2With_run _ ht hi).trans ?_
      rw [if_neg hin, if_neg hsame]
      exact iterate_run ht' hfree' (by omega)
    · refine (mydup2With_run _ ht hi).trans ?_
      rw [if_neg hin, if_neg hsame]
      exact recur_run ht' hfree' (by omega)

/-- Both versions do what dup2 does whenever it succeeds. -/
theorem mydup2_eq_dup2 {newfd : ℤ} (hopen : (t.file fd).isSome = true)
    (hfree : ∃ i : ℕ, t[i]? = some none) (hnonneg : 0 ≤ newfd) (hlt : newfd < t.length) :
    (t.dup2 fd newfd).1 = newfd ∧
    Settles serve (fun fuel => mydup2 fuel t.length fd newfd) t (.ok newfd, (t.dup2 fd newfd).2) ∧
    Settles serve (fun fuel => mydup2Recur fuel t.length fd newfd) t
      (.ok newfd, (t.dup2 fd newfd).2) := by
  obtain ⟨f, ht⟩ := Option.isSome_iff_exists.mp hopen
  obtain ⟨k, hk⟩ := hfree
  obtain ⟨i, hi⟩ := exists_lowest hk
  obtain ⟨n, rfl⟩ := Int.eq_ofNat_of_zero_le hnonneg
  refine ⟨?_, settles_target ht hi (by omega)⟩
  rw [Table.dup2, ht]
  dsimp only
  rw [if_neg (by omega)]
  split <;> rfl

/-- A table of five slots with a hole below the target, which is open. -/
theorem mydup2_eq_dup2_hole :
    (Table.dup2 [some 7, none, some 8, some 9, none] 0 3).1 = 3 ∧
    Settles serve (fun fuel => mydup2 fuel 5 0 3) [some 7, none, some 8, some 9, none]
      (.ok 3, [some 7, none, some 8, some 7, none]) ∧
    Settles serve (fun fuel => mydup2Recur fuel 5 0 3) [some 7, none, some 8, some 9, none]
      (.ok 3, [some 7, none, some 8, some 7, none]) :=
  mydup2_eq_dup2 (by decide) ⟨1, by decide⟩ (by decide) (by decide)

/-- Whenever -1 is returned the table is as it was. -/
def LeavesAlone (p : ℕ → Prog sig ℤ) (t : Table F) : Prop :=
  ∀ t', Settles serve p t (.ok (-1), t') → t' = t

theorem LeavesAlone.of_settles {p : ℕ → Prog sig ℤ} {r : ℤ} {t' : Table F}
    (h : Settles serve p t (.ok r, t')) (ht' : r = -1 → t' = t) : LeavesAlone p t := by
  intro t'' h''
  obtain ⟨hr, rfl⟩ := Prod.mk.inj (h.unique h'')
  exact ht' (Outcome.ok.inj hr)

/-- Just beyond the table both versions fail; the iterative one leaves the table full. -/
theorem mydup2_beyond (ht : t.file fd = some f) (hi : t.lowest = some i) :
    Settles serve (fun fuel => mydup2 fuel t.length fd t.length) t (.ok (-1), filled f t) ∧
    Settles serve (fun fuel => mydup2Recur fuel t.length fd t.length) t (.ok (-1), t) := by
  have hin : ¬ ((t.length : ℤ) < 0 ∨ (t.length : ℤ) < t.length) := by omega
  have hclosed : t.file t.length = none := by
    rw [Table.file_natCast, List.getElem?_eq_none (Nat.le_refl _)]
    rfl
  have hne : (t.length : ℤ) ≠ fd := by
    rintro rfl
    rw [hclosed] at ht
    cases ht
  have hrun : ∀ duplicate : Prog sig ℤ,
      (mydup2With duplicate t.length fd t.length).run serve t = duplicate.run serve t := by
    intro duplicate
    rw [mydup2With_run duplicate ht hi, if_neg hin, if_neg hne, Table.close_closed hclosed]
  have hle : t.free ≤ t.length := List.countP_le_length
  refine ⟨⟨t.length + 1, fun fuel hfuel => (hrun _).trans (iterate_fails ht hfuel)⟩,
    ⟨t.length + 1, fun fuel hfuel => (hrun _).trans ?_⟩⟩
  exact recur_fails ht (Nat.le_refl _) (by omega)

/-- A call whose tests fail. -/
theorem leavesAlone_of_tests {newfd : ℤ}
    (h : t.file fd = none ∨ t.lowest = none ∨ newfd < 0 ∨ (t.length : ℤ) < newfd)
    (duplicate : ℕ → Prog sig ℤ) :
    LeavesAlone (fun fuel => mydup2With (duplicate fuel) t.length fd newfd) t := by
  refine .of_settles (r := -1) ⟨0, fun fuel _ => ?_⟩ fun _ => rfl
  cases ht : t.file fd with
  | none => exact mydup2With_fails _ (.inl ht)
  | some f =>
    cases hi : t.lowest with
    | none => exact mydup2With_fails _ (.inr hi)
    | some i =>
      have hrange : newfd < 0 ∨ (t.length : ℤ) < newfd := by
        rw [ht, hi] at h
        simpa using h
      rw [mydup2With_run _ ht hi, if_pos hrange]

/-- The target is the number just beyond the table, the source is open and there is a free
slot. -/
def JustBeyond (t : Table F) (fd newfd : ℤ) : Prop :=
  newfd = t.length ∧ (t.file fd).isSome = true ∧ ∃ i : ℕ, t[i]? = some none

theorem not_leavesAlone_beyond {newfd : ℤ} (h : JustBeyond t fd newfd) :
    ¬ LeavesAlone (fun fuel => mydup2 fuel t.length fd newfd) t := by
  obtain ⟨rfl, hopen, k, hk⟩ := h
  obtain ⟨f, ht⟩ := Option.isSome_iff_exists.mp hopen
  obtain ⟨i, hi⟩ := exists_lowest hk
  intro halone
  exact filled_ne hk f (halone _ (mydup2_beyond ht hi).1)

/-- A failing call leaves the table alone, in both versions, unless the target is the number
just beyond the table. -/
theorem failing_mydup2_iff (t : Table F) (fd newfd : ℤ) :
    (LeavesAlone (fun fuel => mydup2 fuel t.length fd newfd) t ∧
      LeavesAlone (fun fuel => mydup2Recur fuel t.length fd newfd) t) ↔
    ¬ JustBeyond t fd newfd := by
  refine ⟨fun h hbeyond => not_leavesAlone_beyond hbeyond h.1, fun h => ?_⟩
  by_cases hfails : t.file fd = none ∨ t.lowest = none ∨ newfd < 0 ∨ (t.length : ℤ) < newfd
  · exact ⟨leavesAlone_of_tests hfails _, leavesAlone_of_tests hfails _⟩
  · simp only [not_or] at hfails
    obtain ⟨hopen, hlowest, hnonneg, hle⟩ := hfails
    obtain ⟨f, ht⟩ := Option.ne_none_iff_exists'.mp hopen
    obtain ⟨i, hi⟩ := Option.ne_none_iff_exists'.mp hlowest
    have hisSome : (t.file fd).isSome = true := by rw [ht, Option.isSome_some]
    have hne : newfd ≠ t.length :=
      fun hlast => h ⟨hlast, hisSome, i, (Table.lowest_eq_some.mp hi).1⟩
    obtain ⟨n, rfl⟩ := Int.eq_ofNat_of_zero_le (Int.not_lt.mp hnonneg)
    obtain ⟨hiter, hrec⟩ := settles_target ht hi (show n < t.length by omega)
    exact ⟨.of_settles hiter fun hminus => absurd hminus (by omega),
      .of_settles hrec fun hminus => absurd hminus (by omega)⟩

/-- Descriptor 0 is open, and 4 is the greatest number of open files. -/
theorem failing_mydup2_leaks : ¬ ∀ (t : Table ℕ) (fd newfd : ℤ),
    LeavesAlone (fun fuel => mydup2 fuel t.length fd newfd) t ∧
      LeavesAlone (fun fuel => mydup2Recur fuel t.length fd newfd) t := by
  intro h
  exact not_leavesAlone_beyond ⟨rfl, rfl, 1, rfl⟩ (h [some 7, none, none, none] 0 4).1

end Apue.Dup2
