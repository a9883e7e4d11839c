import Apue.BarrierMerge

/-!
The whole of barrier.c. Main draws the numbers and creates the threads, which sort a part each,
all meet at the barrier, and main merges the parts and prints the numbers. A thread in heapsort
can write anything to its part at any time. When heapsort returns 0, the part has the numbers it
had before, in the order of complong. It may also fail, which thr_fn does not notice; then
nothing is known of the part.
-/
namespace Apue.ParallelSort

open BarrierMerge Relation

/-- Compare two long integers (helper function for heapsort). -/
def complong (l1 l2 : ℤ) : ℤ := if l1 = l2 then 0 else if l1 < l2 then -1 else 1

/-- Where a thread is in thr_fn. -/
inductive Pc
  | unborn
  | sorting
  | waiting
  | ended

/-- Where main is. It ends with exit(0), or in err_exit when a thread cannot be created;
`fault` is an access outside of nums, or of minidx before it is set. -/
inductive Main
  | filling
  | creating (i : ℕ)
  | waiting
  | merging
  | printing
  | exited (done : Bool)
  | fault

def Main.running : Main → Prop
  | .exited _ => False
  | .fault => False
  | _ => True

/-- `waiters` are the calls of pthread_barrier_wait so far, of main and of the threads. The
numbers that random returned are `drawn`, `given` is what a part had when heapsort was called,
and `failed` is whether heapsort has failed in some thread. -/
structure State where
  nums : List ℤ
  thread : Fin NTHR → Pc
  main : Main
  waiters : List (Option (Fin NTHR))
  merged : BarrierMerge.State
  printed : List ℤ
  drawn : List ℤ
  given : Fin NTHR → List ℤ
  failed : Bool

/-- The part of a thread, which begins at `idx`. -/
def slice (nums : List ℤ) (i : Fin NTHR) : List ℤ := (nums.drop (i * TNUM)).take TNUM

/-- The variables of merge at its beginning. -/
def unmerged : BarrierMerge.State := ⟨fun i => i * TNUM, none, [], []⟩

def start : State where
  nums := []
  thread _ := .unborn
  main := .filling
  waiters := []
  merged := unmerged
  printed := []
  drawn := []
  given _ := []
  failed := false

namespace State

def go (s : State) (i : Fin NTHR) (pc : Pc) : State :=
  { s with thread := Function.update s.thread i pc }

/-- The barrier lets go when all threads and main have come to it. -/
def Met (s : State) : Prop := s.waiters.length = NTHR + 1

end State

inductive Step (s : State) : State → Prop
  | draw {v : ℤ} (hm : s.main = .filling) (hroom : s.nums.length < NUMNUM)
      (hv : 0 ≤ v ∧ v ≤ 2 ^ 31 - 1) :
      Step s { s with nums := s.nums ++ [v], drawn := s.drawn ++ [v] }
  | filled (hm : s.main = .filling) (hfull : s.nums.length = NUMNUM) :
      Step s { s with main := .creating 0 }
  | create {i : Fin NTHR} (hm : s.main = .creating i) :
      Step s { s.go i .sorting with
        main := .creating (i + 1)
        given := Function.update s.given i (slice s.nums i) }
  | createFails {i : Fin NTHR} (hm : s.main = .creating i) : Step s { s with main := .exited false }
  | arrive (hm : s.main = .creating NTHR) :
      Step s { s with main := .waiting, waiters := s.waiters ++ [none] }
  | write {i : Fin NTHR} {k : ℕ} {v : ℤ} (hm : s.main.running) (ht : s.thread i = .sorting)
      (hle : i * TNUM ≤ k) (hlt : k < (i + 1) * TNUM) : Step s { s with nums := s.nums.set k v }
  | sorted {i : Fin NTHR} (hm : s.main.running) (ht : s.thread i = .sorting)
      (hperm : (slice s.nums i).Perm (s.given i))
      (hsorted : (slice s.nums i).Pairwise fun a b => complong a b ≤ 0) :
      Step s { s.go i .waiting with waiters := s.waiters ++ [some i] }
  | fails {i : Fin NTHR} (hm : s.main.running) (ht : s.thread i = .sorting) :
      Step s { s.go i .waiting with waiters := s.waiters ++ [some i], failed := true }
  | pass {i : Fin NTHR} (hm : s.main.running) (ht : s.thread i = .waiting) (hmet : s.Met) :
      Step s (s.go i .ended)
  | meet (hm : s.main = .waiting) (hmet : s.Met) : Step s { s with main := .merging }
  | merge {st : BarrierMerge.State} (hm : s.main = .merging)
      (hleft : s.merged.snums.length < NUMNUM) (hround : mergeRound s.nums s.merged = some st) :
      Step s { s with merged := st }
  | mergeFault (hm : s.main = .merging) (hleft : s.merged.snums.length < NUMNUM)
      (hround : mergeRound s.nums s.merged = none) : Step s { s with main := .fault }
  | merged (hm : s.main = .merging) (hend : s.merged.snums.length = NUMNUM) :
      Step s { s with main := .printing }
  | print {v : ℤ} (hm : s.main = .printing) (hv : s.merged.snums[s.printed.length]? = some v) :
      Step s { s with printed := s.printed ++ [v] }
  | exit (hm : s.main = .printing) (hend : s.printed.length = NUMNUM) :
      Step s { s with main := .exited true }

def Reachable (s : State) : Prop := ReflTransGen Step start s

theorem complong_le {l1 l2 : ℤ} : complong l1 l2 ≤ 0 ↔ l1 ≤ l2 := by
  unfold complong
  split
  · omega
  · split <;> omega

section Slices

variable {nums : List ℤ} {i j : Fin NTHR} {k : ℕ} {v : ℤ}

/-- A write to one part leaves the others alone. -/
theorem slice_set (hij : i ≠ j) (hle : i * TNUM ≤ k) (hlt : k < (i + 1) * TNUM) :
    slice (nums.set k v) j = slice nums j := by
  have hne : (i : ℕ) ≠ j := fun heq => hij (Fin.ext heq)
  unfold slice
  rw [List.drop_set]
  split
  · rfl
  case isFalse hbelow =>
    rw [List.take_set, List.set_eq_of_length_le]
    rw [List.length_take]
    have hafter : (j + 1 : ℕ) * TNUM ≤ i * TNUM := by
      by_contra hnot
      have hji : (i + 1 : ℕ) ≤ j ∨ (j + 1 : ℕ) ≤ i := by omega
      rcases hji with hji | hji
      · have hmul := Nat.mul_le_mul_right TNUM hji
        omega
      · exact hnot (Nat.mul_le_mul_right TNUM hji)
    rw [Nat.succ_mul] at hafter
    omega

/-- Parts with the same numbers make up lists with the same numbers. -/
theorem perm_of_slices {nums' : List ℤ} (hlen : nums.length = NUMNUM)
    (hlen' : nums'.length = NUMNUM) (h : ∀ i, (slice nums i).Perm (slice nums' i)) :
    nums.Perm nums' := by
  rw [← Multiset.coe_eq_coe, ← SortedRuns.sum_runs NTHR TNUM nums (hlen.trans NUMNUM_eq),
    ← SortedRuns.sum_runs NTHR TNUM nums' (hlen'.trans NUMNUM_eq)]
  exact Finset.sum_congr rfl fun i _ => Multiset.coe_eq_coe.mpr (h i)

end Slices

namespace State

/-- A part has been sorted. -/
def Sorted (s : State) (i : Fin NTHR) : Prop :=
  (slice s.nums i).Perm (slice s.drawn i) ∧ (slice s.nums i).Pairwise (· ≤ ·)

/-- What a thread has done to its part. -/
def ThreadOk (s : State) (i : Fin NTHR) : Pc → Prop
  | .unborn => slice s.nums i = slice s.drawn i ∧ some i ∉ s.waiters
  | .sorting => s.given i = slice s.drawn i ∧ some i ∉ s.waiters
  | .waiting | .ended => (s.failed = false → s.Sorted i) ∧ some i ∈ s.waiters

/-- Main has not come to the barrier. -/
def Early (s : State) : Prop := s.merged = unmerged ∧ s.printed = [] ∧ none ∉ s.waiters

def Full (s : State) : Prop := s.nums.length = NUMNUM ∧ s.drawn.length = NUMNUM

/-- The numbers have been merged, and some are printed. -/
def Printing (s : State) : Prop :=
  s.printed <+: s.merged.snums ∧ s.merged.snums.length = NUMNUM ∧
    (s.failed = false → s.merged.snums.Pairwise (· ≤ ·) ∧ s.merged.snums.Perm s.drawn)

def MainOk (s : State) : Main → Prop
  | .filling => s.nums = s.drawn ∧ s.nums.length ≤ NUMNUM ∧ (∀ i, s.thread i = .unborn) ∧ s.Early
  | .creating k => s.Full ∧ k ≤ NTHR ∧ s.Early ∧ ∀ i : Fin NTHR, s.thread i = .unborn ↔ k ≤ i
  | .waiting => s.Full ∧ none ∈ s.waiters ∧ (∀ i, s.thread i ≠ .unborn) ∧
      s.merged = unmerged ∧ s.printed = []
  | .merging => s.Full ∧ s.Met ∧ (s.failed = false → Ok s.nums s.merged) ∧
      s.merged.snums.length ≤ NUMNUM ∧ s.printed = []
  | .printing => s.Full ∧ s.Met ∧ s.Printing
  | .exited true => s.Full ∧ s.Printing ∧ s.printed.length = NUMNUM
  | .exited false => s.printed = []
  | .fault => s.failed = true ∧ s.printed = []

structure Inv (s : State) : Prop where
  range : ∀ v ∈ s.drawn, 0 ≤ v ∧ v ≤ 2 ^ 31 - 1
  nodup : s.waiters.Nodup
  thread : ∀ i, s.ThreadOk i (s.thread i)
  main : s.MainOk s.main

variable {s s' : State} {i : Fin NTHR}

theorem inv_start : start.Inv where
  range := nofun
  nodup := List.nodup_nil
  thread _ := ⟨rfl, List.not_mem_nil⟩
  main := ⟨rfl, Nat.zero_le _, fun _ => rfl, rfl, rfl, List.not_mem_nil⟩

theorem ThreadOk.congr {pc : Pc} (h : s.ThreadOk i pc) (hnums : slice s'.nums i = slice s.nums i)
    (hdrawn : s'.drawn = s.drawn) (hgiven : s'.given i = s.given i) (hfailed : s'.failed = s.failed)
    (hwaiters : some i ∈ s'.waiters ↔ some i ∈ s.waiters) : s'.ThreadOk i pc := by
  cases pc <;> simpa only [ThreadOk, Sorted, hnums, hdrawn, hgiven, hfailed, hwaiters] using h

/-- Nobody is missing at the barrier when it lets go. -/
theorem Inv.mem_waiters (h : s.Inv) (hmet : s.Met) (w : Option (Fin NTHR)) : w ∈ s.waiters := by
  have hcard : s.waiters.toFinset.card = Fintype.card (Option (Fin NTHR)) := by
    rw [List.toFinset_card_of_nodup h.nodup, hmet, Fintype.card_option, Fintype.card_fin]
  rw [← List.mem_toFinset, Finset.eq_univ_of_card _ hcard]
  exact Finset.mem_univ w

theorem Inv.not_sorting_of_met (h : s.Inv) (hmet : s.Met) (i : Fin NTHR) :
    s.thread i ≠ .sorting := by
  intro hpc
  have hok := h.thread i
  rw [hpc] at hok
  exact hok.2 (h.mem_waiters hmet (some i))

theorem Inv.sorted_of_met (h : s.Inv) (hfailed : s.failed = false) (hmet : s.Met) (i : Fin NTHR) :
    s.Sorted i := by
  have hok := h.thread i
  have hmem := h.mem_waiters hmet (some i)
  cases hpc : s.thread i <;> rw [hpc] at hok
  · exact absurd hmem hok.2
  · exact absurd hmem hok.2
  · exact hok.1 hfailed
  · exact hok.1 hfailed

theorem Inv.nums_perm (h : s.Inv) (hfailed : s.failed = false) (hfull : s.Full) (hmet : s.Met) :
    s.nums.Perm s.drawn :=
  perm_of_slices hfull.1 hfull.2 fun i => (h.sorted_of_met hfailed hmet i).1

theorem Inv.below_max (h : s.Inv) (hfailed : s.failed = false) (hfull : s.Full) (hmet : s.Met) :
    ∀ v ∈ s.nums, v < LONG_MAX := by
  intro v hv
  have hle := (h.range v ((h.nums_perm hfailed hfull hmet).mem_iff.mp hv)).2
  unfold LONG_MAX
  omega

theorem front_concat {l l' : List ℤ} {v : ℤ} (h : l <+: l') (hv : l'[l.length]? = some v) :
    l ++ [v] <+: l' := by
  obtain ⟨rest, rfl⟩ := h
  rw [List.getElem?_append_right (Nat.le_refl _), Nat.sub_self] at hv
  cases rest with
  | nil => cases hv
  | cons a rest =>
    obtain rfl := Option.some.inj hv
    exact ⟨rest, by simp⟩

theorem Inv.draw {v : ℤ} (h : s.Inv) (hm : s.main = .filling) (hroom : s.nums.length < NUMNUM)
    (hv : 0 ≤ v ∧ v ≤ 2 ^ 31 - 1) :
    State.Inv { s with nums := s.nums ++ [v], drawn := s.drawn ++ [v] } := by
  have hmain := h.main
  rw [hm] at hmain
  obtain ⟨heq, -, hunborn, hearly⟩ := hmain
  refine ⟨fun w hw => ?_, h.nodup, fun i => ?_, ?_⟩
  · rcases List.mem_append.mp hw with hw | hw
    · exact h.range w hw
    · obtain rfl := List.mem_singleton.mp hw
      exact hv
  · have hok := h.thread i
    show ThreadOk _ i (s.thread i)
    rw [hunborn i] at hok ⊢
    exact ⟨congrArg (fun l => slice (l ++ [v]) i) heq, hok.2⟩
  · show MainOk _ s.main
    rw [hm]
    refine ⟨congrArg (· ++ [v]) heq, ?_, hunborn, hearly⟩
    rw [List.length_append, List.length_singleton]
    omega

theorem Inv.create (h : s.Inv) (hm : s.main = .creating i) : State.Inv { s.go i .sorting with
    main := .creating (i + 1)
    given := Function.update s.given i (slice s.nums i) } := by
  have hmain := h.main
  rw [hm] at hmain
  obtain ⟨hfull, -, hearly, hborn⟩ := hmain
  have hunborn : s.thread i = .unborn := (hborn i).mpr (Nat.le_refl _)
  refine ⟨h.range, h.nodup, fun j => ?_, hfull, i.isLt, hearly, fun j => ?_⟩
  · have hok := h.thread j
    show ThreadOk _ j (Function.update s.thread i .sorting j)
    by_cases hj : j = i
    · subst hj
      rw [hunborn] at hok
      rw [Function.update_self]
      refine ⟨?_, hok.2⟩
      show Function.update s.given j (slice s.nums j) j = slice s.drawn j
      rw [Function.update_self]
      exact hok.1
    · rw [Function.update_of_ne hj]
      exact hok.congr rfl rfl (Function.update_of_ne hj ..) rfl Iff.rfl
  · show Function.update s.thread i .sorting j = .unborn ↔ (i + 1 : ℕ) ≤ j
    by_cases hj : j = i
    · subst hj
      rw [Function.update_self]
      exact ⟨Pc.noConfusion, fun hle => absurd hle (Nat.not_succ_le_self _)⟩
    · have hne : (j : ℕ) ≠ i := fun heq => hj (Fin.ext heq)
      rw [Function.update_of_ne hj, hborn j]
      omega

theorem Inv.write {k : ℕ} {v : ℤ} (h : s.Inv) (hm : s.main.running) (ht : s.thread i = .sorting)
    (hle : i * TNUM ≤ k) (hlt : k < (i + 1) * TNUM) :
    State.Inv { s with nums := s.nums.set k v } := by
  have hnotMet : ¬ s.Met := fun hmet => h.not_sorting_of_met hmet i ht
  have hlength : s.Full → (s.nums.set k v).length = NUMNUM ∧ s.drawn.length = NUMNUM :=
    fun hfull => ⟨List.length_set.trans hfull.1, hfull.2⟩
  refine ⟨h.range, h.nodup, fun j => ?_, ?_⟩
  · have hok := h.thread j
    show ThreadOk _ j (s.thread j)
    by_cases hj : i = j
    · subst hj
      rw [ht] at hok ⊢
      exact hok
    · exact hok.congr (slice_set hj hle hlt) rfl rfl rfl Iff.rfl
  · have hmain := h.main
    show MainOk _ s.main
    cases hpc : s.main with
    | filling =>
      rw [hpc] at hmain
      rw [hmain.2.2.1 i] at ht
      cases ht
    | creating n =>
      rw [hpc] at hmain
      exact ⟨hlength hmain.1, hmain.2⟩
    | waiting =>
      rw [hpc] at hmain
      exact ⟨hlength hmain.1, hmain.2⟩
    | merging | printing =>
      rw [hpc] at hmain
      exact absurd hmain.2.1 hnotMet
    | exited done | fault =>
      rw [hpc] at hm
      exact hm.elim

/-- A thread comes from heapsort to the barrier. -/
theorem Inv.sorted {failed : Bool} (h : s.Inv) (hm : s.main.running) (ht : s.thread i = .sorting)
    (hkept : failed = false → s.failed = false)
    (hsorted : failed = false → s.given i = slice s.drawn i → s.Sorted i) :
    State.Inv { s.go i .waiting with waiters := s.waiters ++ [some i], failed := failed } := by
  have hnotMet : ¬ s.Met := fun hmet => h.not_sorting_of_met hmet i ht
  have hi := h.thread i
  rw [ht] at hi
  have hborn : ∀ j, Function.update s.thread i .waiting j = .unborn ↔ s.thread j = .unborn := by
    intro j
    by_cases hj : j = i
    · subst hj
      rw [Function.update_self, ht]
      exact ⟨Pc.noConfusion, Pc.noConfusion⟩
    · rw [Function.update_of_ne hj]
  have hnone : none ∈ s.waiters ++ [some i] ↔ none ∈ s.waiters := by simp
  refine ⟨h.range, ?_, fun j => ?_, ?_⟩
  · exact h.nodup.append (List.nodup_singleton _) (List.disjoint_singleton.mpr hi.2)
  · have hok := h.thread j
    show ThreadOk _ j (Function.update s.thread i .waiting j)
    by_cases hj : j = i
    · subst hj
      rw [Function.update_self]
      exact ⟨fun hfailed => hsorted hfailed hi.1, by simp⟩
    · rw [Function.update_of_ne hj]
      have hmem : some j ∈ s.waiters ++ [some i] ↔ some j ∈ s.waiters := by simp [hj]
      cases hpc : s.thread j <;> rw [hpc] at hok
      · exact ⟨hok.1, hmem.not.mpr hok.2⟩
      · exact ⟨hok.1, hmem.not.mpr hok.2⟩
      · exact ⟨fun hfailed => hok.1 (hkept hfailed), hmem.mpr hok.2⟩
      · exact ⟨fun hfailed => hok.1 (hkept hfailed), hmem.mpr hok.2⟩
  · have hmain := h.main
    show MainOk _ s.main
    cases hpc : s.main with
    | filling =>
      rw [hpc] at hmain
      rw [hmain.2.2.1 i] at ht
      cases ht
    | creating n =>
      rw [hpc] at hmain
      obtain ⟨hfull, hle, ⟨hmerged, hprinted, hearly⟩, hcreated⟩ := hmain
      exact ⟨hfull, hle, ⟨hmerged, hprinted, hnone.not.mpr hearly⟩, fun j =>
        (hborn j).trans (hcreated j)⟩
    | waiting =>
      rw [hpc] at hmain
      obtain ⟨hfull, hmem, hcreated, hrest⟩ := hmain
      exact ⟨hfull, hnone.mpr hmem, fun j => (hborn j).not.mpr (hcreated j), hrest⟩
    | merging | printing =>
      rw [hpc] at hmain
      exact absurd hmain.2.1 hnotMet
    | exited done | fault =>
      rw [hpc] at hm
      exact hm.elim

theorem Inv.pass (h : s.Inv) (hm : s.main.running) (ht : s.thread i = .waiting) (hmet : s.Met) :
    (s.go i .ended).Inv := by
  refine ⟨h.range, h.nodup, fun j => ?_, ?_⟩
  · have hok := h.thread j
    show ThreadOk _ j (Function.update s.thread i .ended j)
    by_cases hj : j = i
    · subst hj
      rw [ht] at hok
      rw [Function.update_self]
      exact hok
    · rw [Function.update_of_ne hj]
      exact hok.congr rfl rfl rfl rfl Iff.rfl
  · have hmain := h.main
    show MainOk _ s.main
    cases hpc : s.main with
    | filling =>
      rw [hpc] at hmain
      rw [hmain.2.2.1 i] at ht
      cases ht
    | creating n =>
      rw [hpc] at hmain
      exact absurd (h.mem_waiters hmet none) hmain.2.2.1.2.2
    | waiting =>
      rw [hpc] at hmain
      obtain ⟨hfull, hmem, hcreated, hrest⟩ := hmain
      refine ⟨hfull, hmem, fun j => ?_, hrest⟩
      show Function.update s.thread i .ended j ≠ .unborn
      by_cases hj : j = i
      · subst hj
        rw [Function.update_self]
        exact Pc.noConfusion
      · rw [Function.update_of_ne hj]
        exact hcreated j
    | merging | printing =>
      rw [hpc] at hmain
      exact hmain
    | exited done | fault =>
      rw [hpc] at hm
      exact hm.elim

theorem Inv.step (h : s.Inv) (hs : Step s s') : s'.Inv := by
  have hmain := h.main
  cases hs with
  | draw hm hroom hv => exact h.draw hm hroom hv
  | create hm => exact h.create hm
  | write hm ht hle hlt => exact h.write hm ht hle hlt
  | sorted hm ht hperm hsorted =>
    exact h.sorted hm ht id fun _ hgiven =>
      ⟨hgiven ▸ hperm, hsorted.imp fun hle => complong_le.mp hle⟩
  | fails hm ht => exact h.sorted hm ht (fun hno => by cases hno) fun hno => by cases hno
  | pass hm ht hmet => exact h.pass hm ht hmet
  | filled hm hfull =>
    rw [hm] at hmain
    obtain ⟨heq, -, hunborn, hearly⟩ := hmain
    exact ⟨h.range, h.nodup, h.thread, ⟨hfull, heq ▸ hfull⟩, Nat.zero_le _, hearly,
      fun i => ⟨fun _ => Nat.zero_le _, fun _ => hunborn i⟩⟩
  | createFails hm =>
    rw [hm] at hmain
    exact ⟨h.range, h.nodup, h.thread, hmain.2.2.1.2.1⟩
  | arrive hm =>
    rw [hm] at hmain
    obtain ⟨hfull, -, ⟨hmerged, hprinted, hearly⟩, hcreated⟩ := hmain
    refine ⟨h.range, ?_, fun i => (h.thread i).congr rfl rfl rfl rfl (by simp), hfull, by simp,
      fun i hi => ?_, hmerged, hprinted⟩
    · exact h.nodup.append (List.nodup_singleton _) (List.disjoint_singleton.mpr hearly)
    · exact absurd ((hcreated i).mp hi) (Nat.not_le.mpr i.isLt)
  | meet hm hmet =>
    rw [hm] at hmain
    obtain ⟨hfull, -, -, hmerged, hprinted⟩ := hmain
    refine ⟨h.range, h.nodup, h.thread, hfull, hmet, fun hfailed => ?_, ?_, hprinted⟩
    · show Ok s.nums s.merged
      rw [hmerged]
      exact ok_start hfull.1 fun i hi => (h.sorted_of_met hfailed hmet ⟨i, hi⟩).2
    · show s.merged.snums.length ≤ NUMNUM
      rw [hmerged]
      exact Nat.zero_le _
  | @merge st hm hleft hround =>
    rw [hm] at hmain
    obtain ⟨hfull, hmet, hok, -, hprinted⟩ := hmain
    refine ⟨h.range, h.nodup, h.thread, ?_⟩
    show MainOk _ s.main
    rw [hm]
    refine ⟨hfull, hmet, fun hfailed => ?_, ?_, hprinted⟩
    · obtain ⟨st', hround', hok', -⟩ :=
        (hok hfailed).round hfull.1 (h.below_max hfailed hfull hmet) hleft
      obtain rfl := Option.some.inj (hround.symm.trans hround')
      exact hok'
    · show st.snums.length ≤ NUMNUM
      rw [length_mergeRound hround]
      exact hleft
  | mergeFault hm hleft hround =>
    rw [hm] at hmain
    obtain ⟨hfull, hmet, hok, -, hprinted⟩ := hmain
    refine ⟨h.range, h.nodup, h.thread, ?_, hprinted⟩
    by_contra hno
    have hfailed := Bool.eq_false_of_not_eq_true hno
    obtain ⟨st', hround', -⟩ := (hok hfailed).round hfull.1 (h.below_max hfailed hfull hmet) hleft
    cases hround.symm.trans hround'
  | merged hm hend =>
    rw [hm] at hmain
    obtain ⟨hfull, hmet, hok, -, hprinted⟩ := hmain
    refine ⟨h.range, h.nodup, h.thread, hfull, hmet, ?_, hend, fun hfailed => ?_⟩
    · show s.printed <+: s.merged.snums
      rw [hprinted]
      exact ⟨s.merged.snums, List.nil_append _⟩
    · have hmerging := (hok hfailed).merging
      exact ⟨hmerging.out_sorted, (hmerging.perm (hend.trans hfull.1.symm)).trans
        (h.nums_perm hfailed hfull hmet)⟩
  | print hm hv =>
    rw [hm] at hmain
    obtain ⟨hfull, hmet, hfront, hrest⟩ := hmain
    refine ⟨h.range, h.nodup, h.thread, ?_⟩
    show MainOk _ s.main
    rw [hm]
    exact ⟨hfull, hmet, front_concat hfront hv, hrest⟩
  | exit hm hend =>
    rw [hm] at hmain
    exact ⟨h.range, h.nodup, h.thread, hmain.1, hmain.2.2, hend⟩

/-- The barrier lets main go when no thread is in heapsort. -/
theorem Inv.met_of_waiting (h : s.Inv) (hm : s.main = .waiting)
    (hidle : ∀ i, s.thread i ≠ .sorting) : s.Met := by
  have hmain := h.main
  rw [hm] at hmain
  obtain ⟨-, hnone, hcreated, -⟩ := hmain
  have hall : ∀ w, w ∈ s.waiters.toFinset := by
    intro w
    rw [List.mem_toFinset]
    cases w with
    | none => exact hnone
    | some i =>
      have hok := h.thread i
      cases hpc : s.thread i <;> rw [hpc] at hok
      · exact absurd hpc (hcreated i)
      · exact absurd hpc (hidle i)
      · exact hok.2
      · exact hok.2
  show s.waiters.length = NTHR + 1
  rw [← List.toFinset_card_of_nodup h.nodup, Finset.eq_univ_of_forall hall, Finset.card_univ,
    Fintype.card_option, Fintype.card_fin]

/-- Unless a thread is in heapsort, something can happen until main exits. -/
theorem Inv.exists_step (h : s.Inv) (hrun : s.main.running) (hidle : ∀ i, s.thread i ≠ .sorting) :
    ∃ s', Step s s' := by
  have hmain := h.main
  cases hm : s.main with
  | filling =>
    rw [hm] at hmain
    rcases Nat.lt_or_ge s.nums.length NUMNUM with hroom | hfull
    · exact ⟨_, .draw (v := 0) hm hroom (by decide)⟩
    · exact ⟨_, .filled hm (Nat.le_antisymm hmain.2.1 hfull)⟩
  | creating n =>
    rw [hm] at hmain
    rcases Nat.lt_or_ge n NTHR with hn | hn
    · exact ⟨_, .create (i := ⟨n, hn⟩) hm⟩
    · obtain rfl := Nat.le_antisymm hmain.2.1 hn
      exact ⟨_, .arrive hm⟩
  | waiting => exact ⟨_, .meet hm (h.met_of_waiting hm hidle)⟩
  | merging =>
    rw [hm] at hmain
    rcases Nat.lt_or_ge s.merged.snums.length NUMNUM with hleft | hend
    · cases hround : mergeRound s.nums s.merged with
      | some st => exact ⟨_, .merge hm hleft hround⟩
      | none => exact ⟨_, .mergeFault hm hleft hround⟩
    · exact ⟨_, .merged hm (Nat.le_antisymm hmain.2.2.2.1 hend)⟩
  | printing =>
    rw [hm] at hmain
    obtain ⟨-, -, hfront, hlen, -⟩ := hmain
    rcases Nat.lt_or_ge s.printed.length NUMNUM with hleft | hend
    · exact ⟨_, .print hm (List.getElem?_eq_getElem (hlen ▸ hleft))⟩
    · exact ⟨_, .exit hm (Nat.le_antisymm (hlen ▸ hfront.length_le) hend)⟩
  | exited done | fault =>
    rw [hm] at hrun
    exact hrun.elim

/-- The printed numbers are sorted at any time. -/
theorem Inv.printed_sorted (h : s.Inv) (hfailed : s.failed = false) :
    s.printed.Pairwise (· ≤ ·) := by
  have hmain := h.main
  have hnil : s.printed = [] → s.printed.Pairwise (· ≤ ·) := fun hnil => hnil ▸ List.Pairwise.nil
  have hprinting : s.Printing → s.printed.Pairwise (· ≤ ·) := fun hp =>
    (hp.2.2 hfailed).1.sublist hp.1.sublist
  cases hm : s.main with
  | filling =>
    rw [hm] at hmain
    exact hnil hmain.2.2.2.2.1
  | creating n =>
    rw [hm] at hmain
    exact hnil hmain.2.2.1.2.1
  | waiting =>
    rw [hm] at hmain
    exact hnil hmain.2.2.2.2
  | merging =>
    rw [hm] at hmain
    exact hnil hmain.2.2.2.2
  | printing =>
    rw [hm] at hmain
    exact hprinting hmain.2.2
  | exited done =>
    rw [hm] at hmain
    cases done with
    | false => exact hnil hmain
    | true => exact hprinting hmain.2.1
  | fault =>
    rw [hm] at hmain
    exact hnil hmain.2

end State

theorem inv_of_reachable {s : State} (h : Reachable s) : s.Inv := by
  induction h with
  | refl => exact State.inv_start
  | tail _ hs ih => exact ih.step hs

/-- In every interleaving of main and the threads, whatever the numbers are and whatever
heapsort does to a part before it returns, main merges when no thread is sorting any more. As
long as heapsort has not failed, main never leaves nums, prints the numbers in order, and has
printed all of them when it exits. The barrier does not hang: unless a thread is in heapsort,
main or another thread can go on. -/
theorem prints_sorted (s : State) (h : Reachable s) :
    (s.main = .merging → ∀ i, s.thread i ≠ .sorting) ∧
      (s.failed = false → s.main ≠ .fault ∧ s.printed.Pairwise (· ≤ ·) ∧
        (s.main = .exited true → s.printed.Perm s.drawn ∧ s.drawn.length = NUMNUM)) ∧
      (s.main.running → (∀ i, s.thread i ≠ .sorting) → ∃ s', Step s s') := by
  have hinv := inv_of_reachable h
  have hmain := hinv.main
  refine ⟨fun hm i => ?_, fun hfailed => ⟨fun hm => ?_, hinv.printed_sorted hfailed, fun hm => ?_⟩,
    hinv.exists_step⟩
  · rw [hm] at hmain
    exact hinv.not_sorting_of_met hmain.2.1 i
  · rw [hm] at hmain
    cases hfailed.symm.trans hmain.1
  · rw [hm] at hmain
    obtain ⟨hfull, ⟨hfront, hlength, hmerged⟩, hlen⟩ := hmain
    have hall := hfront.eq_of_length (hlen.trans hlength.symm)
    exact ⟨hall ▸ (hmerged hfailed).2, hfull.2⟩

/-- The numbers that were drawn are still in their places, and heapsort has not failed. -/
structure Kept (l : List ℤ) (s : State) : Prop where
  reachable : Reachable s
  nums : s.nums = l
  drawn : s.drawn = l
  fine : s.failed = false

section Sorted

variable {l : List ℤ} (hrange : ∀ v ∈ l, 0 ≤ v ∧ v ≤ 2 ^ 31 - 1)

include hrange in
theorem exists_drawn (hlen : l.length ≤ NUMNUM) : Reachable { start with nums := l, drawn := l } := by
  induction l using List.reverseRecOn with
  | nil => exact .refl
  | append_singleton l v ih =>
    rw [List.length_append, List.length_singleton] at hlen
    have hbefore := ih (fun w hw => hrange w (List.mem_append_left _ hw)) (Nat.le_of_succ_le hlen)
    exact hbefore.tail (.draw rfl hlen (hrange v (by simp)))

variable (hlen : l.length = NUMNUM)

include hrange hlen

theorem exists_filled : Reachable { start with nums := l, drawn := l, main := .creating 0 } :=
  (exists_drawn hrange hlen.le).tail (.filled rfl hlen)

theorem exists_created {n : ℕ} (hn : n ≤ NTHR) : ∃ s, Kept l s ∧ s.main = .creating n ∧
    ∀ i : Fin NTHR, s.thread i = .unborn ∨ s.thread i = .sorting := by
  induction n with
  | zero =>
    exact ⟨_, ⟨exists_filled hrange hlen, rfl, rfl, rfl⟩, rfl, fun _ => .inl rfl⟩
  | succ n ih =>
    obtain ⟨s, ⟨hreach, hnums, hdrawn, hfine⟩, hm, hborn⟩ := ih (Nat.le_of_succ_le hn)
    refine ⟨_, ⟨hreach.tail (.create (i := ⟨n, hn⟩) hm), hnums, hdrawn, hfine⟩, rfl, fun i => ?_⟩
    change Function.update s.thread ⟨n, hn⟩ .sorting i = .unborn ∨
      Function.update s.thread ⟨n, hn⟩ .sorting i = .sorting
    by_cases hi : i = ⟨n, hn⟩
    · subst hi
      exact .inr (Function.update_self ..)
    · rw [Function.update_of_ne hi]
      exact hborn i

variable (hsorted : ∀ i < NTHR, ((l.drop (i * TNUM)).take TNUM).Pairwise (· ≤ ·))

include hsorted

/-- The threads come to the barrier one after the other. -/
theorem exists_sorted {n : ℕ} (hn : n ≤ NTHR) : ∃ s, Kept l s ∧ s.main = .waiting ∧
    ∀ i : Fin NTHR, n ≤ i ∧ s.thread i = .sorting ∨ i < n ∧ s.thread i = .waiting := by
  induction n with
  | zero =>
    obtain ⟨s, hs, hm, hborn⟩ := exists_created hrange hlen (Nat.le_refl NTHR)
    have hmain := (inv_of_reachable hs.reachable).main
    rw [hm] at hmain
    refine ⟨_, ⟨hs.reachable.tail (.arrive hm), hs.nums, hs.drawn, hs.fine⟩, rfl, fun i =>
      .inl ⟨Nat.zero_le _, (hborn i).resolve_left fun hno => ?_⟩⟩
    exact absurd ((hmain.2.2.2 i).mp hno) (Nat.not_le.mpr i.isLt)
  | succ n ih =>
    obtain ⟨s, ⟨hreach, hnums, hdrawn, hfine⟩, hm, hthreads⟩ := ih (Nat.le_of_succ_le hn)
    have ht : s.thread ⟨n, hn⟩ = .sorting :=
      ((hthreads ⟨n, hn⟩).resolve_right fun hno => Nat.lt_irrefl n hno.1).2
    have hok := (inv_of_reachable hreach).thread ⟨n, hn⟩
    rw [ht] at hok
    have hpart : slice s.nums ⟨n, hn⟩ = slice l ⟨n, hn⟩ := by rw [hnums]
    refine ⟨_, ⟨hreach.tail (.sorted (i := ⟨n, hn⟩) (by rw [hm]; trivial) ht ?_ ?_), hnums, hdrawn,
      hfine⟩, hm, fun i => ?_⟩
    · rw [hpart, hok.1, hdrawn]
    · rw [hpart]
      exact (hsorted n hn).imp fun hle => complong_le.mpr hle
    · change _ ∧ Function.update s.thread ⟨n, hn⟩ .waiting i = .sorting ∨
        _ ∧ Function.update s.thread ⟨n, hn⟩ .waiting i = .waiting
      by_cases hi : i = ⟨n, hn⟩
      · subst hi
        exact .inr ⟨Nat.lt_succ_self n, Function.update_self ..⟩
      · have hne : (i : ℕ) ≠ n := fun heq => hi (Fin.ext heq)
        rw [Function.update_of_ne hi]
        exact (hthreads i).imp (fun h => ⟨by omega, h.2⟩) fun h => ⟨by omega, h.2⟩

theorem exists_merging {n : ℕ} (hn : n ≤ NUMNUM) : ∃ s, Kept l s ∧ s.main = .merging ∧
    s.merged.snums.length = n := by
  induction n with
  | zero =>
    obtain ⟨s, ⟨hreach, hnums, hdrawn, hfine⟩, hm, hthreads⟩ := exists_sorted hrange hlen hsorted (Nat.le_refl NTHR)
    have hinv := inv_of_reachable hreach
    have hmain := hinv.main
    rw [hm] at hmain
    have hmet := hinv.met_of_waiting hm fun i hsorting => by
      have hwaits := (hthreads i).resolve_left fun hno => Nat.not_le.mpr i.isLt hno.1
      cases hsorting.symm.trans hwaits.2
    refine ⟨_, ⟨hreach.tail (.meet hm hmet), hnums, hdrawn, hfine⟩, rfl, ?_⟩
    exact congrArg (fun st => st.snums.length) hmain.2.2.2.1
  | succ n ih =>
    obtain ⟨s, ⟨hreach, hnums, hdrawn, hfine⟩, hm, hlen⟩ := ih (Nat.le_of_succ_le hn)
    have hinv := inv_of_reachable hreach
    have hmain := hinv.main
    rw [hm] at hmain
    obtain ⟨hfull, hmet, hok, -⟩ := hmain
    have hleft : s.merged.snums.length < NUMNUM := hlen.trans_lt hn
    obtain ⟨st, hround, -, hmore⟩ :=
      (hok hfine).round hfull.1 (hinv.below_max hfine hfull hmet) hleft
    exact ⟨_, ⟨hreach.tail (.merge hm hleft hround), hnums, hdrawn, hfine⟩, hm,
      hmore.trans (congrArg (· + 1) hlen)⟩

theorem exists_printed {n : ℕ} (hn : n ≤ NUMNUM) : ∃ s, Kept l s ∧ s.main = .printing ∧
    s.printed.length = n := by
  induction n with
  | zero =>
    obtain ⟨s, ⟨hreach, hnums, hdrawn, hfine⟩, hm, hlen⟩ := exists_merging hrange hlen hsorted (Nat.le_refl NUMNUM)
    have hmain := (inv_of_reachable hreach).main
    rw [hm] at hmain
    refine ⟨_, ⟨hreach.tail (.merged hm hlen), hnums, hdrawn, hfine⟩, rfl, ?_⟩
    exact congrArg List.length hmain.2.2.2.2
  | succ n ih =>
    obtain ⟨s, ⟨hreach, hnums, hdrawn, hfine⟩, hm, hlen⟩ := ih (Nat.le_of_succ_le hn)
    have hmain := (inv_of_reachable hreach).main
    rw [hm] at hmain
    have hlt : s.printed.length < s.merged.snums.length := by
      rw [hmain.2.2.2.1, hlen]
      exact hn
    refine ⟨_, ⟨hreach.tail (.print hm (List.getElem?_eq_getElem hlt)), hnums, hdrawn, hfine⟩, hm,
      ?_⟩
    rw [List.length_append, List.length_singleton, hlen]

end Sorted

/-- Main sorts the numbers of `dealt`, and exits. -/
theorem prints_sorted_dealt : ∃ s, Reachable s ∧ s.main = .exited true ∧ s.drawn = dealt ∧
    s.printed.Pairwise (· ≤ ·) ∧ s.printed.Perm s.drawn := by
  obtain ⟨s, ⟨hreach, hnums, hdrawn, hfine⟩, hm, hlen⟩ :=
    exists_printed dealt_range length_dealt dealt_sorted (Nat.le_refl NUMNUM)
  have hexit := hreach.tail (.exit hm hlen)
  obtain ⟨-, hsorted, hend⟩ := (prints_sorted _ hexit).2.1 hfine
  exact ⟨_, hexit, rfl, hdrawn, hsorted, (hend rfl).1⟩

end Apue.ParallelSort
