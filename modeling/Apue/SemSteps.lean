import Apue.SemInvariant

/-!
The steps of the processes keep the invariant of the semaphore sets.
-/
namespace Apue.Semaph

namespace State

variable {C : Conditions} {s s' : State} {p id : ℕ} {pc : Pc} {x y : SemSet}

theorem countP_filter_add_count (p id : ℕ) (l : List (ℕ × ℕ)) :
    (l.filter fun e => e.1 ≠ p).countP (fun e => e.2 = id) + l.count (p, id) =
      l.countP fun e => e.2 = id := by
  induction l with
  | nil => rfl
  | cons e l ih =>
    obtain ⟨q, j⟩ := e
    by_cases hq : q = p
    · subst hq
      by_cases hj : j = id
      · subst hj
        simp only [ne_eq, not_true_eq_false, decide_false, Bool.false_eq_true, not_false_eq_true,
          List.filter_cons_of_neg, List.count_cons_self, decide_true, List.countP_cons_of_pos]
        simp only [ne_eq] at ih
        omega
      · have hne : (q, j) ≠ (q, id) := by simp [hj]
        simpa [hj, List.count_cons_of_ne hne] using ih
    · have hne : (q, j) ≠ (p, id) := by simp [hq]
      by_cases hj : j = id
      · subst hj
        simp only [ne_eq, hq, not_false_eq_true, decide_true, List.filter_cons_of_pos,
          List.countP_cons_of_pos, List.count_cons_of_ne hne]
        simp only [ne_eq] at ih
        omega
      · simpa [hq, hj, List.count_cons_of_ne hne] using ih

theorem exit_opened (s : State) (p id : ℕ) (pc : Pc) :
    (s.exit p pc).opened id + s.opens.count (p, id) = s.opened id :=
  countP_filter_add_count p id s.opens

theorem exit_count (s : State) (p q id : ℕ) (pc : Pc) :
    (s.exit p pc).opens.count (q, id) = if q = p then 0 else s.opens.count (q, id) := by
  by_cases hq : q = p
  · subst hq
    rw [if_pos rfl, List.count_eq_zero]
    simp [State.exit]
  · rw [if_neg hq]
    simp only [State.exit]
    rw [List.count_filter]
    simp [hq]

theorem exit_proc {q : ℕ} (hq : q ≠ p) : (s.exit p pc).proc q = s.proc q :=
  Function.update_of_ne hq _ _

theorem exit_proc_self : (s.exit p pc).proc p = pc := Function.update_self ..

/-- The lock of a process that exits is given up by its adjustment. -/
theorem LockOk.exit (h : s.LockOk id x) (hpc : pc.locks = none) :
    (s.exit p pc).LockOk id (x.exit p) := by
  have hother : ∀ q, q ≠ p → ((s.exit p pc).proc q).locks = (s.proc q).locks := fun q hq => by
    rw [exit_proc hq]
  have hgone : ((s.exit p pc).proc p).locks = none := by
    rw [exit_proc_self]
    exact hpc
  have hadj := h.adj p
  by_cases hmine : (s.proc p).locks = some id
  · have hone : x.val 2 = 1 := by
      rcases h.lock with ⟨-, hnone⟩ | ⟨hone, -⟩
      · exact absurd hmine (hnone p)
      · exact hone
    rw [Pc.held, if_pos hmine] at hadj
    refine h.release hmine (by rw [hgone]; rintro ⟨⟩) hother ?_ fun q => ?_
    · rw [SemSet.exit_val, hone, hadj]
      rfl
    · rw [SemSet.exit_adj]
      by_cases hq : q = p
      · subst hq
        simp [hadj]
      · simp [hq]
  · rw [Pc.held, if_neg hmine] at hadj
    refine h.frame (fun q => ?_) ?_ fun q => ?_
    · by_cases hq : q = p
      · subst hq
        rw [hgone]
        simp [hmine]
      · rw [hother q hq]
    · rw [SemSet.exit_val, hadj]
      rcases h.lock with ⟨hzero, -⟩ | ⟨hone, -⟩
      · rw [hzero]
        rfl
      · rw [hone]
        rfl
    · rw [SemSet.exit_adj]
      by_cases hq : q = p
      · subst hq
        simp [hadj]
      · simp [hq]

/-- The opens of a process that exits are given up by its adjustment. -/
theorem CountOk.exit (h : s.CountOk C id x) (hlimited : ∀ j, C.limited j → s.LimitedAt j) :
    (s.exit p pc).CountOk C id (x.exit p) := by
  have hopened := exit_opened s p id pc
  refine ⟨fun hnot => ?_, fun hlim hin => ?_, h.once, h.order⟩
  · obtain ⟨hval, hzero, hadj⟩ := h.blank hnot
    refine ⟨?_, by omega, fun q => ?_⟩
    · rw [SemSet.exit_val, hval, hadj]
      rfl
    · rw [SemSet.exit_adj, hadj, ite_self]
  · obtain ⟨hval, hadj⟩ := h.count hlim hin
    refine ⟨?_, fun q => ?_⟩
    · rw [SemSet.exit_val, hadj p]
      have hbig : BIGCOUNT ≤ SEMVMX := by decide
      have hlt : (s.opened id : ℤ) < BIGCOUNT := hlimited id hlim
      rw [Int.min_eq_right (by omega), Int.max_eq_right (by omega)]
      omega
    · rw [SemSet.exit_adj, exit_count, hadj]
      split <;> rfl

/-- A process ends. -/
theorem Inv.exit (h : s.Inv C) (hlimited : ∀ j, C.limited j → s.LimitedAt j) (hpc : pc.locks = none)
    (hok : (s.exit p pc).PcOk C p pc) : (s.exit p pc).Inv C := by
  have hset : ∀ j, (s.exit p pc).set j = (s.set j).map fun x => x.exit p := fun _ => rfl
  have hold : ∀ {j z}, (s.exit p pc).set j = some z → ∃ x, s.set j = some x ∧ x.exit p = z :=
    fun hz => Option.map_eq_some_iff.mp hz
  have hnone : ∀ {j}, s.set j ≠ none → (s.exit p pc).set j ≠ none := fun hj hnone => by
    rw [hset, Option.map_eq_none_iff] at hnone
    exact hj hnone
  refine ⟨fun j hj => ?_, fun e he => ?_, fun key j hj => ?_, fun j z hz => ?_, fun j z hz => ?_,
    fun q => ?_⟩
  · rw [hset, h.fresh j hj]
    rfl
  · exact h.known e (List.mem_filter.mp he).1
  · exact hnone (h.keyed key j hj)
  · obtain ⟨x, hx, rfl⟩ := hold hz
    exact (h.lock j x hx).exit hpc
  · obtain ⟨x, hx, rfl⟩ := hold hz
    exact (h.count j x hx).exit hlimited
  · by_cases hq : q = p
    · subst hq
      rw [exit_proc_self]
      exact hok
    · rw [exit_proc hq]
      refine (h.proc q).keep (fun j _ x hx => ⟨x.exit p, ?_, fun _ hin => hin, fun hnot => hnot⟩)
        (fun _ _ _ _ _ hne => hnone hne) (fun j hmem => ?_) fun _ j _ => ?_
      · rw [hset, hx]
        rfl
      · exact List.mem_filter.mpr ⟨hmem, by simp [hq]⟩
      · have hopened := exit_opened s p j pc
        omega

/-- A new set is created. Nothing refers to its identifier yet. -/
theorem Inv.created (h : s.Inv C) (key : ℤ) :
    ({ s with
      key := Function.update s.key key (some s.sets)
      set := Function.update s.set s.sets (some .created)
      sets := s.sets + 1 } : State).Inv C := by
  have hfresh := h.fresh s.sets (Nat.le_refl _)
  have hunlocked : ∀ q, (s.proc q).locks ≠ some s.sets := fun q hq => by
    obtain ⟨x, hx⟩ := (h.proc q).live hq
    rw [hfresh] at hx
    cases hx
  have hunopened : s.opened s.sets = 0 := by
    refine List.countP_eq_zero.mpr fun e he => ?_
    have hlt := h.known e he
    simp only [decide_eq_true_eq]
    omega
  have hnone : ∀ {j}, s.set j ≠ none →
      Function.update s.set s.sets (some .created) j ≠ none := fun {j} hj => by
    by_cases hjs : j = s.sets
    · subst hjs
      simp
    · rwa [Function.update_of_ne hjs]
  refine ⟨fun j hj => ?_, fun e he => Nat.lt_succ_of_lt (h.known e he), fun key' j hj => ?_,
    fun j z hz => ?_, fun j z hz => ?_, fun q => ?_⟩
  · refine (Function.update_of_ne (Nat.ne_of_gt hj) _ _).trans (h.fresh j ?_)
    exact Nat.le_of_succ_le hj
  · change Function.update s.key key _ key' = some j at hj
    by_cases hk : key' = key
    · subst hk
      rw [Function.update_self] at hj
      obtain rfl := Option.some.inj hj
      simp
    · rw [Function.update_of_ne hk] at hj
      exact hnone (h.keyed key' j hj)
  · change Function.update s.set s.sets _ j = some z at hz
    by_cases hj : j = s.sets
    · subst hj
      rw [Function.update_self] at hz
      obtain rfl := Option.some.inj hz
      refine ⟨fun q => ?_, Or.inl ⟨rfl, hunlocked⟩, fun q r hq => absurd hq (hunlocked q)⟩
      rw [Pc.held, if_neg (hunlocked q)]
      rfl
    · rw [Function.update_of_ne hj] at hz
      exact (h.lock j z hz).frame (fun _ => Iff.rfl) rfl fun _ => rfl
  · change Function.update s.set s.sets _ j = some z at hz
    by_cases hj : j = s.sets
    · subst hj
      rw [Function.update_self] at hz
      obtain rfl := Option.some.inj hz
      refine ⟨fun _ => ⟨rfl, hunopened, fun _ => rfl⟩, fun _ => ?_, fun _ => ?_, ?_⟩
      all_goals rintro ⟨⟩
    · rw [Function.update_of_ne hj] at hz
      exact (h.count j z hz).frame rfl rfl (fun _ => rfl) rfl fun _ => rfl
  · refine (h.proc q).keep (fun j hj x hx => ⟨x, ?_, fun _ hin => hin, fun hnot => hnot⟩)
      (fun _ _ _ _ _ hne => hnone hne) (fun _ hmem => hmem) fun _ _ _ => Nat.le_refl _
    have hjs : j ≠ s.sets := by
      rintro rfl
      exact hunlocked q hj
    exact (Function.update_of_ne hjs _ _).trans hx

/-- The semget of sem_create finds a set or creates one. -/
theorem Inv.semgetCreate {key initval : ℤ} (h : s.Inv C)
    (hpc : s.proc p = .create key initval) : (s.semgetCreate p key initval).Inv C := by
  have hlocks : none = (s.proc p).locks := by
    rw [hpc]
    rfl
  simp only [State.semgetCreate]
  split
  case h_1 id hkey => exact h.move hlocks nofun
  case h_2 hkey => exact (h.created key).move hlocks nofun

/-- The holder of the lock removes the set. -/
theorem Inv.rmid (h : s.Inv C) (hpc : s.proc p = .closeRm id)
    (hspared : C.spared → ∀ q key initval, s.proc q ≠ .createLock key initval id true) :
    (s.rmid p id).Inv C := by
  have hmine : (s.proc p).locks = some id := by
    rw [hpc]
    rfl
  obtain ⟨x, hx⟩ := (h.proc p).live hmine
  have honly : ∀ q, q ≠ p → (s.proc q).locks ≠ some id := fun q hq hlocks =>
    hq ((h.lock id x hx).single q p hlocks hmine)
  simp only [State.rmid, hx]
  have hold : ∀ {j z}, Function.update s.set id none j = some z → j ≠ id ∧ s.set j = some z :=
    fun {j z} hz => by
      by_cases hj : j = id
      · subst hj
        rw [Function.update_self] at hz
        cases hz
      · exact ⟨hj, by rwa [Function.update_of_ne hj] at hz⟩
  have hsame : ∀ j, j ≠ id → ∀ q, (Function.update s.proc p .idle q).locks = some j ↔
      (s.proc q).locks = some j := by
    intro j hj q
    by_cases hq : q = p
    · subst hq
      rw [Function.update_self, hmine]
      simp [Pc.locks, Ne.symm hj]
    · rw [Function.update_of_ne hq]
  refine ⟨fun j hj => ?_, h.known, fun key j hj => ?_, fun j z hz => ?_, fun j z hz => ?_,
    fun q => ?_⟩
  · by_cases hji : j = id
    · subst hji
      exact Function.update_self ..
    · exact (Function.update_of_ne hji _ _).trans (h.fresh j hj)
  · change (if s.key key = some id then none else s.key key) = some j at hj
    split at hj
    · cases hj
    case isFalse hkey =>
      have hji : j ≠ id := by
        rintro rfl
        exact hkey hj
      exact fun hnone => h.keyed key j hj ((Function.update_of_ne hji _ _).symm.trans hnone)
  · obtain ⟨hj, hz⟩ := hold hz
    exact (h.lock j z hz).frame (hsame j hj) rfl fun _ => rfl
  · obtain ⟨hj, hz⟩ := hold hz
    exact (h.count j z hz).frame rfl rfl (fun _ => rfl) rfl fun _ => rfl
  · change PcOk C _ q (Function.update s.proc p .idle q)
    by_cases hq : q = p
    · subst hq
      rw [Function.update_self]
      trivial
    · rw [Function.update_of_ne hq]
      refine (h.proc q).keep (fun j hj z hz => ⟨z, ?_, fun _ hin => hin, fun hnot => hnot⟩)
        (fun hcs key initval j hj hne => ?_) (fun _ hmem => hmem) fun _ _ _ => Nat.le_refl _
      · have hji : j ≠ id := by
          rintro rfl
          exact honly q hq hj
        exact (Function.update_of_ne hji _ _).trans hz
      · have hji : j ≠ id := by
          rintro rfl
          exact hspared hcs q key initval hj
        exact fun hnone => hne ((Function.update_of_ne hji _ _).symm.trans hnone)

theorem count_le_opened (s : State) (p id : ℕ) : s.opens.count (p, id) ≤ s.opened id := by
  have hsum := exit_opened s p id .idle
  omega

/-- A process changes a set but no opens. -/
theorem Inv.changeSet (h : s.Inv C) (hx : s.set id = some x)
    (hlocks : ∀ j, j ≠ id → (pc.locks = some j ↔ (s.proc p).locks = some j))
    (hlock : (s.change p pc id y).LockOk id y) (hcount : (s.change p pc id y).CountOk C id y)
    (hok : (s.change p pc id y).PcOk C p pc) (hin : ∀ m ∈ x.log, m ∈ y.log)
    (hlog : (s.proc p).locks = some id ∨ (1 ∉ x.log → 1 ∉ y.log)) : (s.change p pc id y).Inv C :=
  h.change hx rfl hlocks (fun _ _ _ => rfl) (fun _ _ => rfl) hlock hcount hok hin hlog
    (Or.inr (Or.inl (Nat.le_refl _)))

theorem move_proc_self : (s.move p pc).proc p = pc := Function.update_self ..

theorem change_proc {q : ℕ} (hq : q ≠ p) : (s.change p pc id x).proc q = s.proc q :=
  Function.update_of_ne hq _ _

theorem change_proc_self : (s.change p pc id x).proc p = pc := Function.update_self ..

theorem change_set_self : (s.change p pc id x).set id = some x := Function.update_self ..

/-- An open is counted. -/
theorem CountOk.opens {opens : List (ℕ × ℕ)} (h : s.CountOk C id x) (hpos : 1 ≤ x.val 1)
    (hopens : opens = (p, id) :: s.opens) (hlog : y.log = x.log) (hval : y.val 1 = x.val 1 - 1)
    (hadj : ∀ q, y.adj q 1 = x.adj q 1 + if q = p then 1 else 0) (hs' : s'.opens = opens) :
    s'.CountOk C id y := by
  have hopened : s'.opened id = s.opened id + 1 := by
    rw [opened, hs', hopens, List.countP_cons_of_pos (by simp)]
    rfl
  refine ⟨fun hnot => ?_, fun hlim hin => ?_, fun hlim => by rw [hlog]; exact h.once hlim,
    by rw [hlog]; exact h.order⟩
  · rw [hlog] at hnot
    have hzero := (h.blank hnot).1
    omega
  · rw [hlog] at hin
    obtain ⟨hsum, hcount⟩ := h.count hlim hin
    refine ⟨by omega, fun q => ?_⟩
    rw [hadj, hcount, hs', hopens]
    by_cases hq : q = p
    · subst hq
      simp
    · have hne : (p, id) ≠ (q, id) := by simp [Ne.symm hq]
      simp [hq, List.count_cons_of_ne hne]

/-- A close is counted. -/
theorem CountOk.closes (h : s.CountOk C id x) (hmem : (p, id) ∈ s.opens) (hlog : y.log = x.log)
    (hval : y.val 1 = x.val 1 + 1) (hadj : ∀ q, y.adj q 1 = x.adj q 1 - if q = p then 1 else 0)
    (hs' : s'.opens = s.opens.erase (p, id)) : s'.CountOk C id y := by
  have hpos : 0 < s.opened id := List.countP_pos_iff.mpr ⟨(p, id), hmem, by simp⟩
  have hopened : s'.opened id = s.opened id - 1 := by
    rw [opened, hs', List.countP_erase]
    simp [hmem, opened]
  refine ⟨fun hnot => ?_, fun hlim hin => ?_, fun hlim => by rw [hlog]; exact h.once hlim,
    by rw [hlog]; exact h.order⟩
  · rw [hlog] at hnot
    have hzero := (h.blank hnot).2.1
    omega
  · rw [hlog] at hin
    obtain ⟨hsum, hcount⟩ := h.count hlim hin
    refine ⟨by omega, fun q => ?_⟩
    rw [hadj, hcount, hs']
    by_cases hq : q = p
    · subst hq
      have hcountPos := List.count_pos_iff.mpr hmem
      rw [List.count_erase_self, if_pos rfl]
      omega
    · have hne : (q, id) ≠ (p, id) := by simp [hq]
      rw [List.count_erase_of_ne hne, if_neg hq]
      omega

/-- What a semop can do. -/
theorem Inv.semop {fn : Fn} {asleep : Bool} {ops : List Sembuf} {sleep : Pc} {next : SemSet → State}
    (h : s.Inv C) (hlimited : ∀ j, C.limited j → s.LimitedAt j)
    (hs : s.semop p fn id asleep ops sleep next = some s')
    (hgone : s.set id = none → fn = .create → C.spared → gone asleep = .ERANGE)
    (hlocks : sleep.locks = (s.proc p).locks) (hsleep : s.PcOk C p sleep)
    (hdone : ∀ x y, s.set id = some x → x.semop p ops = .done y → (next y).Inv C) : s'.Inv C := by
  simp only [State.semop] at hs
  split at hs
  case h_1 hnone =>
    obtain rfl := Option.some.inj hs
    refine h.exit hlimited rfl ?_
    cases fn with
    | create => exact hgone hnone rfl
    | openf => trivial
    | close => trivial
    | op => trivial
  case h_2 x hx =>
    split at hs
    case h_1 y hy =>
      obtain rfl := Option.some.inj hs
      exact hdone x y hx hy
    · split at hs
      · cases hs
      · obtain rfl := Option.some.inj hs
        exact h.move hlocks hsleep
    · obtain rfl := Option.some.inj hs
      refine h.exit hlimited rfl ?_
      cases fn with
      | create => exact fun _ => rfl
      | openf => trivial
      | close => trivial
      | op => trivial

/-- A process gets the lock in sem_create. -/
theorem Inv.lockDone {initval : ℤ} (h : s.Inv C) (hlocks : (s.proc p).locks = none)
    (hx : s.set id = some x) (hy : x.semop p op_lock = .done y) :
    (s.change p (.createRead initval id) id y).Inv C := by
  obtain ⟨hfree, rfl⟩ := SemSet.semop_lock hy
  refine h.changeSet hx (fun j hj => ?_) ?_ ?_ ?_ (fun _ hin => hin) (Or.inr fun hnot => hnot)
  · rw [hlocks]
    simp [Pc.locks, Ne.symm hj]
  · refine (h.lock id x hx).acquire hfree (by rw [change_proc_self]; rfl)
      (fun q hq => by rw [change_proc hq]) (by simp [hfree]) fun q => ?_
    simp
  · exact (h.count id x hx).frame rfl (by simp) (fun q => by simp) rfl fun _ => rfl
  · change State.set _ id ≠ none
    rw [change_set_self]
    nofun

/-- The end of sem_create: the open is counted and the lock given up. -/
theorem Inv.endcreateDone (h : s.Inv C) (hlocks : (s.proc p).locks = some id)
    (hx : s.set id = some x) (hy : x.semop p op_endcreate = .done y) :
    ({ s.change p .idle id y with opens := (p, id) :: s.opens } : State).Inv C := by
  obtain ⟨hpos, rfl⟩ := SemSet.semop_endcreate hy
  refine h.change hx rfl (fun j hj => ?_) (fun q j hne => ?_) (fun j hj => ?_) ?_ ?_ trivial
    (fun _ hin => hin) (Or.inl hlocks) (Or.inl hlocks)
  · rw [hlocks]
    simp [Pc.locks, Ne.symm hj]
  · refine List.count_cons_of_ne ?_
    rintro heq
    cases heq
    simp at hne
  · exact List.countP_cons_of_neg (by simp [Ne.symm hj])
  · refine (h.lock id x hx).release hlocks ?_ (fun q hq => ?_) ?_ fun q => ?_
    · change (Function.update s.proc p .idle p).locks ≠ some id
      rw [Function.update_self]
      nofun
    · change (Function.update s.proc p .idle q).locks = _
      rw [Function.update_of_ne hq]
    · simp
      omega
    · simp
      split <;> rfl
  · refine (h.count id x hx).opens hpos rfl rfl ?_ (fun q => ?_) rfl
    · simp
      omega
    · simp
      split <;> rfl

/-- An open is counted by sem_open, which has no lock. -/
theorem Inv.openDone (h : s.Inv C) (hlocks : (s.proc p).locks = none)
    (hquiet : C.quiet → ∀ q, s.proc q ≠ .closeRm id)
    (hx : s.set id = some x) (hy : x.semop p op_open = .done y) :
    ({ s.change p .idle id y with opens := (p, id) :: s.opens } : State).Inv C := by
  obtain ⟨hpos, rfl⟩ := SemSet.semop_open hy
  refine h.change hx rfl (fun j hj => ?_) (fun q j hne => ?_) (fun j hj => ?_) ?_ ?_ trivial
    (fun _ hin => hin) (Or.inr fun hnot => hnot) (Or.inr (Or.inr hquiet))
  · rw [hlocks]
    rfl
  · refine List.count_cons_of_ne ?_
    rintro heq
    cases heq
    simp at hne
  · exact List.countP_cons_of_neg (by simp [Ne.symm hj])
  · refine (h.lock id x hx).frame (fun q => ?_) (by simp) fun q => by simp
    change (Function.update s.proc p .idle q).locks = some id ↔ _
    by_cases hq : q = p
    · subst hq
      rw [Function.update_self, hlocks]
      rfl
    · rw [Function.update_of_ne hq]
  · refine (h.count id x hx).opens hpos rfl rfl ?_ (fun q => ?_) rfl
    · simp
      omega
    · simp
      split <;> rfl

/-- A close gets the lock and is counted. -/
theorem Inv.closeDone (h : s.Inv C) (hlocks : (s.proc p).locks = none) (hmem : (p, id) ∈ s.opens)
    (hx : s.set id = some x) (hy : x.semop p op_close = .done y) :
    ({ s.change p (.closeRead id) id y with opens := s.opens.erase (p, id) } : State).Inv C := by
  obtain ⟨hfree, rfl⟩ := SemSet.semop_close hy
  refine h.change hx rfl (fun j hj => ?_) (fun q j hne => ?_) (fun j hj => ?_) ?_ ?_ ?_
    (fun _ hin => hin) (Or.inr fun hnot => hnot) (Or.inr (Or.inl ?_))
  · rw [hlocks]
    simp [Pc.locks, Ne.symm hj]
  · refine List.count_erase_of_ne ?_
    rintro heq
    cases heq
    simp at hne
  · rw [opened, opened]
    simp only
    rw [List.countP_erase]
    simp [Ne.symm hj]
  · refine (h.lock id x hx).acquire (p := p) hfree ?_ (fun q hq => ?_) (by simp [hfree])
      fun q => by simp
    · change (Function.update s.proc p (.closeRead id) p).locks = some id
      rw [Function.update_self]
      rfl
    · change (Function.update s.proc p (.closeRead id) q).locks = _
      rw [Function.update_of_ne hq]
  · exact (h.count id x hx).closes hmem rfl (by simp) (fun q => by simp) rfl
  · change Function.update s.set id _ id ≠ none
    rw [Function.update_self]
    nofun
  · rw [opened, opened]
    exact (List.erase_sublist).countP_le

/-- The end of sem_close: the lock is given up. -/
theorem Inv.unlockDone (h : s.Inv C) (hlocks : (s.proc p).locks = some id)
    (hx : s.set id = some x) (hy : x.semop p op_unlock = .done y) :
    (s.change p .idle id y).Inv C := by
  obtain rfl := SemSet.semop_unlock hy
  refine h.changeSet hx (fun j hj => ?_) ?_ ?_ trivial (fun _ hin => hin) (Or.inl hlocks)
  · rw [hlocks]
    simp [Pc.locks, Ne.symm hj]
  · refine (h.lock id x hx).release hlocks (by rw [change_proc_self]; nofun)
      (fun q hq => by rw [change_proc hq]) ?_ fun q => ?_
    · simp
      omega
    · simp
      split <;> rfl
  · exact (h.count id x hx).frame rfl (by simp) (fun q => by simp) rfl fun _ => rfl

/-- An operation on the value of the semaphore. -/
theorem Inv.opDone {value : ℤ} (h : s.Inv C) (hlocks : (s.proc p).locks = none)
    (hx : s.set id = some x) (hy : x.semop p (op_op value) = .done y) :
    (s.change p .idle id y).Inv C := by
  obtain ⟨hlog, hval, hadj⟩ : y.log = x.log ∧ (∀ m, m ≠ 0 → y.val m = x.val m) ∧
      ∀ q m, m ≠ 0 → y.adj q m = x.adj q m := by
    rcases SemSet.semop_op hy with rfl | rfl
    · exact ⟨rfl, fun _ _ => rfl, fun _ _ _ => rfl⟩
    · exact ⟨rfl, fun m hm => by simp [hm], fun q m hm => by simp [hm]⟩
  refine h.changeSet hx (fun j hj => ?_) ?_ ?_ trivial (fun _ hin => hlog ▸ hin)
    (Or.inr fun hnot => hlog ▸ hnot)
  · rw [hlocks]
    rfl
  · refine (h.lock id x hx).frame (fun q => ?_) (hval 2 (by decide)) fun q => hadj q 2 (by decide)
    by_cases hq : q = p
    · subst hq
      rw [change_proc_self, hlocks]
      rfl
    · rw [change_proc hq]
  · exact (h.count id x hx).frame hlog (hval 1 (by decide)) (fun q => hadj q 1 (by decide)) rfl
      fun _ => rfl

/-- The two SETVALs of sem_create. -/
theorem Inv.setval0 {initval : ℤ} (h : s.Inv C) (hlimited : ∀ j, C.limited j → s.LimitedAt j)
    (hpc : s.proc p = .createSet0 initval id) :
    (s.setval p id 0 initval (.createSet1 id)).Inv C := by
  have hlocks : (s.proc p).locks = some id := by
    rw [hpc]
    rfl
  have hok := h.proc p
  rw [hpc] at hok
  obtain ⟨x, hx, hnot⟩ := hok
  simp only [State.setval, hx]
  split
  · exact h.exit hlimited rfl fun _ => rfl
  · refine h.changeSet hx (fun j hj => ?_) ?_
      ⟨fun hout => ?_, fun hlim hin => ?_, fun hlim => ?_, fun hin => ?_⟩ ?_
      (fun _ hin => List.mem_cons_of_mem _ hin) (Or.inl hlocks)
    · rw [hlocks]
      rfl
    · refine (h.lock id x hx).frame (fun q => ?_) (by simp) fun q => by simp
      by_cases hq : q = p
      · subst hq
        rw [change_proc_self, hlocks]
        rfl
      · rw [change_proc hq]
    · obtain ⟨hval, hzero, hadj⟩ := (h.count id x hx).blank fun hin => hout (List.mem_cons_of_mem _ hin)
      exact ⟨by simp [hval], hzero, fun q => by simp [hadj]⟩
    · have hin : 1 ∈ x.log := by simpa using hin
      exact absurd hin (hnot hlim)
    · exact hnot hlim
    · exact List.mem_cons_self
    · exact ⟨_, change_set_self, fun hlim => by simp [hnot hlim], List.mem_cons_self⟩

theorem Inv.setval1 (h : s.Inv C) (hlimited : ∀ j, C.limited j → s.LimitedAt j)
    (hpc : s.proc p = .createSet1 id) :
    (s.setval p id 1 BIGCOUNT (.createEnd id false)).Inv C := by
  have hlocks : (s.proc p).locks = some id := by
    rw [hpc]
    rfl
  have hok := h.proc p
  rw [hpc] at hok
  obtain ⟨x, hx, hnot, hzeroth⟩ := hok
  simp only [State.setval, hx]
  split
  · exact h.exit hlimited rfl fun _ => rfl
  · refine h.changeSet hx (fun j hj => ?_) ?_
      ⟨fun hout => ?_, fun hlim hin => ?_, fun hlim => ?_, fun hin => ?_⟩ ?_
      (fun _ hin => List.mem_cons_of_mem _ hin) (Or.inl hlocks)
    · rw [hlocks]
      rfl
    · refine (h.lock id x hx).frame (fun q => ?_) (by simp) fun q => by simp
      by_cases hq : q = p
      · subst hq
        rw [change_proc_self, hlocks]
        rfl
      · rw [change_proc hq]
    · exact absurd List.mem_cons_self hout
    · obtain ⟨-, hzero, -⟩ := (h.count id x hx).blank (hnot hlim)
      have hopened : (s.change p (.createEnd id false) id (x.setval 1 BIGCOUNT)).opened id = 0 := hzero
      refine ⟨by simp [hopened], fun q => ?_⟩
      have hcount := count_le_opened (s.change p (.createEnd id false) id (x.setval 1 BIGCOUNT)) q id
      simp only [SemSet.setval_adj, if_true]
      omega
    · exact hnot hlim
    · exact List.mem_cons_of_mem _ hzeroth
    · exact ⟨_, change_set_self, List.mem_cons_self⟩

theorem Inv.begin {c : Call} (h : s.Inv C) (hlimited : ∀ j, C.limited j → s.LimitedAt j)
    (hidle : s.proc p = .idle) (hs : s.begin p c = some s') : s'.Inv C := by
  have hlocks : none = (s.proc p).locks := by
    rw [hidle]
    rfl
  cases c with
  | sem_create key initval =>
    simp only [State.begin] at hs
    split at hs
    · obtain rfl := Option.some.inj hs
      exact h
    · obtain rfl := Option.some.inj hs
      exact h.move hlocks trivial
  | sem_open key =>
    simp only [State.begin] at hs
    split at hs
    · obtain rfl := Option.some.inj hs
      exact h
    · obtain rfl := Option.some.inj hs
      exact h.move hlocks trivial
  | sem_close id =>
    obtain ⟨hmem, hs⟩ := Option.ite_none_right_eq_some.mp hs
    obtain rfl := Option.some.inj hs
    exact h.move hlocks hmem
  | sem_op id value =>
    simp only [State.begin] at hs
    split at hs
    · obtain rfl := Option.some.inj hs
      exact h.exit hlimited rfl trivial
    · obtain rfl := Option.some.inj hs
      exact h.move hlocks trivial

/-- A new set has a counter that is zero, and one that was set has a counter above zero as
long as the opens are limited. -/
theorem CountOk.log_iff (h : s.CountOk C id x) (hlimited : ∀ j, C.limited j → s.LimitedAt j)
    (hlim : C.limited id) : x.val 1 = 0 ↔ 1 ∉ x.log := by
  refine ⟨fun hzero hin => ?_, fun hnot => (h.blank hnot).1⟩
  have hsum := (h.count hlim hin).1
  have hlt : (s.opened id : ℤ) < BIGCOUNT := hlimited id hlim
  omega

/-- The next system call of a process keeps the invariant. -/
theorem Inv.next (h : s.Inv C) (hlimited : ∀ j, C.limited j → s.LimitedAt j)
    (hquiet : C.quiet → s.Quiet (.go p)) (hspared : C.spared → s.Spared (.go p))
    (hs : s.next p = some s') : s'.Inv C := by
  have hok := h.proc p
  cases hpc : s.proc p with
  | idle =>
    simp only [State.next, hpc] at hs
    cases hs
  | create key initval =>
    simp only [State.next, hpc] at hs
    obtain rfl := Option.some.inj hs
    exact h.semgetCreate hpc
  | createLock key initval id asleep =>
    rw [hpc] at hok
    have hlocks : (s.proc p).locks = none := by
      rw [hpc]
      rfl
    simp only [State.next, hpc] at hs
    split at hs
    · obtain rfl := Option.some.inj hs
      exact h.move hlocks.symm trivial
    case isFalse hnot =>
      have hlive : C.spared → s.set id ≠ none := fun hcs hnone => by
        cases asleep with
        | false => exact hnot ⟨hnone, rfl⟩
        | true => exact hok hcs rfl hnone
      exact h.semop hlimited hs (fun hnone _ hcs => absurd hnone (hlive hcs)) hlocks.symm
        (fun hcs _ => hlive hcs) fun x y hx hy => h.lockDone hlocks hx hy
  | createRead initval id =>
    rw [hpc] at hok
    obtain ⟨x, hx⟩ := Option.ne_none_iff_exists'.mp hok
    simp only [State.next, hpc, hx] at hs
    obtain rfl := Option.some.inj hs
    split
    case isTrue hzero =>
      refine h.move (by rw [hpc]; rfl) ⟨x, hx, fun hlim => ?_⟩
      exact ((h.count id x hx).log_iff hlimited hlim).mp hzero
    case isFalse hne =>
      refine h.move (by rw [hpc]; rfl) ⟨x, hx, ?_⟩
      by_contra hnot
      exact hne ((h.count id x hx).blank hnot).1
  | createSet0 initval id =>
    simp only [State.next, hpc] at hs
    obtain rfl := Option.some.inj hs
    exact h.setval0 hlimited hpc
  | createSet1 id =>
    simp only [State.next, hpc] at hs
    obtain rfl := Option.some.inj hs
    exact h.setval1 hlimited hpc
  | createEnd id asleep =>
    rw [hpc] at hok
    have hlocks : (s.proc p).locks = some id := by
      rw [hpc]
      rfl
    obtain ⟨x, hx, hin⟩ := hok
    simp only [State.next, hpc] at hs
    refine h.semop hlimited hs (fun hgone => ?_) hlocks.symm ⟨x, hx, hin⟩
      fun x y hx hy => h.endcreateDone hlocks hx hy
    rw [hx] at hgone
    cases hgone
  | openGet key =>
    have hlocks : none = (s.proc p).locks := by
      rw [hpc]
      rfl
    simp only [State.next, hpc] at hs
    split at hs
    · obtain rfl := Option.some.inj hs
      exact h.move hlocks trivial
    · obtain rfl := Option.some.inj hs
      exact h.move hlocks trivial
  | openCount id asleep =>
    have hlocks : (s.proc p).locks = none := by
      rw [hpc]
      rfl
    simp only [State.next, hpc] at hs
    exact h.semop hlimited hs nofun hlocks.symm trivial fun x y hx hy =>
      h.openDone hlocks (fun hq => hquiet hq p id asleep rfl hpc) hx hy
  | closeLock id asleep =>
    rw [hpc] at hok
    have hlocks : (s.proc p).locks = none := by
      rw [hpc]
      rfl
    simp only [State.next, hpc] at hs
    exact h.semop hlimited hs nofun hlocks.symm hok fun x y hx hy => h.closeDone hlocks hok hx hy
  | closeRead id =>
    rw [hpc] at hok
    obtain ⟨x, hx⟩ := Option.ne_none_iff_exists'.mp hok
    simp only [State.next, hpc, hx] at hs
    split at hs
    · obtain rfl := Option.some.inj hs
      exact h.exit hlimited rfl trivial
    · split at hs
      case isTrue hbig =>
        obtain rfl := Option.some.inj hs
        refine h.move (by rw [hpc]; rfl) ⟨hok, fun hlim _ => ?_⟩
        by_cases hin : 1 ∈ x.log
        · have hsum := ((h.count id x hx).count hlim hin).1
          omega
        · exact ((h.count id x hx).blank hin).2.1
      · obtain rfl := Option.some.inj hs
        exact h.move (by rw [hpc]; rfl) hok
  | closeRm id =>
    simp only [State.next, hpc] at hs
    obtain rfl := Option.some.inj hs
    exact h.rmid hpc fun hcs => hspared hcs p id rfl hpc
  | closeUnlock id asleep =>
    rw [hpc] at hok
    have hlocks : (s.proc p).locks = some id := by
      rw [hpc]
      rfl
    simp only [State.next, hpc] at hs
    exact h.semop hlimited hs nofun hlocks.symm hok fun x y hx hy => h.unlockDone hlocks hx hy
  | op id value asleep =>
    have hlocks : (s.proc p).locks = none := by
      rw [hpc]
      rfl
    simp only [State.next, hpc] at hs
    exact h.semop hlimited hs nofun hlocks.symm trivial fun x y hx hy => h.opDone hlocks hx hy
  | exited =>
    simp only [State.next, hpc] at hs
    cases hs
  | failed fn errno =>
    simp only [State.next, hpc] at hs
    cases hs

theorem Inv.step {e : Event} (h : s.Inv C) (hlimited : ∀ j, C.limited j → s.LimitedAt j)
    (hquiet : C.quiet → s.Quiet e) (hspared : C.spared → s.Spared e)
    (hs : s.step e = some s') : s'.Inv C := by
  cases e with
  | call p c =>
    obtain ⟨hidle, hs⟩ := Option.ite_none_right_eq_some.mp hs
    exact h.begin hlimited hidle hs
  | go p => exact h.next hlimited hquiet hspared hs
  | refuse p =>
    simp only [State.step] at hs
    split at hs
    case h_1 key initval hpc =>
      obtain rfl := Option.some.inj hs
      exact h.move (by rw [hpc]; rfl) trivial
    case h_2 key hpc =>
      obtain rfl := Option.some.inj hs
      exact h.move (by rw [hpc]; rfl) trivial
    · cases hs
  | exit p =>
    simp only [State.step] at hs
    split at hs
    · cases hs
    · cases hs
    · obtain rfl := Option.some.inj hs
      exact h.exit hlimited rfl trivial

end State

end Apue.Semaph
