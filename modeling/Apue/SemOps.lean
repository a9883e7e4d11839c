import Apue.SemModel
import Mathlib.Logic.Function.Basic

/-!
What the operation arrays of semaph.c do to a set when they are carried out.
-/
namespace Apue.Semaph

namespace SemSet

variable {x y : SemSet} {p q m : ℕ} {o : Sembuf}

@[simp]
theorem add_val : (x.add p o).val m = x.val m + if m = o.sem_num then o.sem_op else 0 := by
  by_cases hm : m = o.sem_num
  · subst hm
    simp [add]
  · simp [add, hm]

@[simp]
theorem add_adj (hundo : o.undo = true) : (x.add p o).adj q m =
    x.adj q m - if q = p ∧ m = o.sem_num then o.sem_op else 0 := by
  by_cases hq : q = p
  · subst hq
    by_cases hm : m = o.sem_num
    · subst hm
      simp [add, hundo]
    · simp [add, hundo, hm]
  · simp [add, hundo, hq]

@[simp]
theorem add_log : (x.add p o).log = x.log := rfl

@[simp]
theorem setval_val {num : ℕ} {value : ℤ} :
    (x.setval num value).val m = if m = num then value else x.val m := by
  simp [setval, Function.update_apply]

@[simp]
theorem setval_adj {num : ℕ} {value : ℤ} :
    (x.setval num value).adj q m = if m = num then 0 else x.adj q m := by
  simp [setval, Function.update_apply]

@[simp]
theorem setval_log {num : ℕ} {value : ℤ} : (x.setval num value).log = num :: x.log := rfl

@[simp]
theorem exit_val : (x.exit p).val m = max 0 (min SEMVMX (x.val m + x.adj p m)) := rfl

@[simp]
theorem exit_adj : (x.exit p).adj q m = if q = p then 0 else x.adj q m := by
  by_cases hq : q = p
  · subst hq
    simp [exit]
  · simp [exit, hq]

@[simp]
theorem exit_log : (x.exit p).log = x.log := rfl

/-- A waiting operation goes on when its member is zero. -/
theorem semop_zero {num : ℕ} {undo : Bool} {ops : List Sembuf}
    (h : x.semop p (⟨num, 0, undo⟩ :: ops) = .done y) : x.val num = 0 ∧ x.semop p ops = .done y := by
  rw [semop, if_pos rfl] at h
  split at h
  case isTrue hzero => exact ⟨hzero, h⟩
  · cases h

/-- An adding operation goes on when the value stays in its range. -/
theorem semop_add {ops : List Sembuf} (hop : o.sem_op ≠ 0)
    (h : x.semop p (o :: ops) = .done y) :
    0 ≤ x.val o.sem_num + o.sem_op ∧ (x.add p o).semop p ops = .done y := by
  rw [semop, if_neg hop] at h
  split at h
  · cases h
  case isFalse hneg =>
    split at h
    · cases h
    · exact ⟨Int.not_lt.mp hneg, h⟩

theorem semop_lock (h : x.semop p op_lock = .done y) :
    x.val 2 = 0 ∧ y = x.add p ⟨2, 1, true⟩ := by
  obtain ⟨hzero, h⟩ := semop_zero h
  obtain ⟨-, h⟩ := semop_add (by decide) h
  exact ⟨hzero, (Outcome.done.inj h).symm⟩

theorem semop_endcreate (h : x.semop p op_endcreate = .done y) :
    1 ≤ x.val 1 ∧ y = (x.add p ⟨1, -1, true⟩).add p ⟨2, -1, true⟩ := by
  obtain ⟨hpos, h⟩ := semop_add (by decide) h
  obtain ⟨-, h⟩ := semop_add (by decide) h
  refine ⟨?_, (Outcome.done.inj h).symm⟩
  simp only at hpos
  omega

theorem semop_open (h : x.semop p op_open = .done y) :
    1 ≤ x.val 1 ∧ y = x.add p ⟨1, -1, true⟩ := by
  obtain ⟨hpos, h⟩ := semop_add (by decide) h
  refine ⟨?_, (Outcome.done.inj h).symm⟩
  simp only at hpos
  omega

theorem semop_close (h : x.semop p op_close = .done y) :
    x.val 2 = 0 ∧ y = (x.add p ⟨2, 1, true⟩).add p ⟨1, 1, true⟩ := by
  obtain ⟨hzero, h⟩ := semop_zero h
  obtain ⟨-, h⟩ := semop_add (by decide) h
  obtain ⟨-, h⟩ := semop_add (by decide) h
  exact ⟨hzero, (Outcome.done.inj h).symm⟩

theorem semop_unlock (h : x.semop p op_unlock = .done y) : y = x.add p ⟨2, -1, true⟩ := by
  obtain ⟨-, h⟩ := semop_add (by decide) h
  exact (Outcome.done.inj h).symm

theorem semop_op {value : ℤ} (h : x.semop p (op_op value) = .done y) :
    y = x ∨ y = x.add p ⟨0, value, true⟩ := by
  by_cases hvalue : value = 0
  · subst hvalue
    obtain ⟨-, h⟩ := semop_zero h
    exact Or.inl (Outcome.done.inj h).symm
  · obtain ⟨-, h⟩ := semop_add hvalue h
    exact Or.inr (Outcome.done.inj h).symm

end SemSet

end Apue.Semaph
