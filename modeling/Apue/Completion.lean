import Apue.Programs
import Mathlib.Algebra.GroupWithZero.Nat

/-!
Machines that come to an end. Each step is made by a thread, brings it nearer to its end, and
leaves the others where they are. When some thread can go on as long as one is not at its end,
then every order of steps ends, with all threads at their ends.
-/
namespace Apue.Completion

open Programs

variable {S P : Type}

/-- `left` is how many steps a thread has left at most, in the states that are `good`. -/
structure Ending (f : S → P → Option S) (good : S → Prop) (left : S → P → ℕ) : Prop where
  keeps : ∀ s p s', good s → f s p = some s' → good s'
  nearer : ∀ s p s', good s → f s p = some s' → left s' p < left s p
  others : ∀ s p s', good s → f s p = some s' → ∀ q, q ≠ p → left s' q = left s q
  goesOn : ∀ s p, good s → 0 < left s p → ∃ q s', f s q = some s'

namespace Ending

variable {f : S → P → Option S} {good : S → Prop} {left : S → P → ℕ} {s s' : S} {ps : List P}

theorem good_steps (h : Ending f good left) (hs : good s) (hrun : steps f ps s = some s') :
    good s' :=
  steps_induct (fun s p s' hs hstep => h.keeps s p s' hs hstep) hrun hs

variable [DecidableEq P]

/-- A thread does not make more steps than it has left. -/
theorem count_add_left_le (h : Ending f good left) (hs : good s)
    (hrun : steps f ps s = some s') (p : P) : ps.count p + left s' p ≤ left s p := by
  induction ps generalizing s with
  | nil =>
    obtain rfl := Option.some.inj hrun
    simp
  | cons q ps ih =>
    obtain ⟨s₁, hstep, hrest⟩ := Option.bind_eq_some_iff.mp hrun
    have hle := ih (h.keeps s q s₁ hs hstep) hrest
    by_cases hq : q = p
    · subst hq
      have hlt := h.nearer s q s₁ hs hstep
      rw [List.count_cons_self]
      omega
    · have heq := h.others s q s₁ hs hstep p (Ne.symm hq)
      rw [List.count_cons_of_ne hq]
      omega

omit [DecidableEq P] in
theorem sum_map_le {g g' : P → ℕ} (hle : ∀ q, g' q ≤ g q) (l : List P) :
    (l.map g').sum ≤ (l.map g).sum := by
  induction l with
  | nil => exact Nat.le_refl 0
  | cons q l ih =>
    have hq := hle q
    simp only [List.map_cons, List.sum_cons]
    omega

theorem sum_lt (h : Ending f good left) {p : P} (hs : good s) (hstep : f s p = some s')
    {busy : List P} (hp : p ∈ busy) : (busy.map (left s')).sum < (busy.map (left s)).sum := by
  have hlt := h.nearer s p s' hs hstep
  have hle : ∀ q, left s' q ≤ left s q := by
    intro q
    by_cases hq : q = p
    · exact hq ▸ Nat.le_of_lt hlt
    · exact Nat.le_of_eq (h.others s p s' hs hstep q hq)
  obtain ⟨before, after, rfl⟩ := List.append_of_mem hp
  have hbefore := sum_map_le hle before
  have hafter := sum_map_le hle after
  simp only [List.map_append, List.map_cons, List.sum_append_nat, List.sum_cons]
  omega

/-- The threads can always go on until all of them are at their ends. -/
theorem exists_end (h : Ending f good left) (hs : good s) (busy : List P)
    (hbusy : ∀ p, 0 < left s p → p ∈ busy) :
    ∃ ps s', steps f ps s = some s' ∧ good s' ∧ ∀ p, left s' p = 0 := by
  generalize hn : (busy.map (left s)).sum = n
  induction n using Nat.strongRecOn generalizing s with
  | ind n ih =>
    by_cases hend : ∀ p, left s p = 0
    · exact ⟨[], s, rfl, hs, hend⟩
    · obtain ⟨p, hp⟩ := not_forall.mp hend
      obtain ⟨q, s₁, hstep⟩ := h.goesOn s p hs (Nat.pos_of_ne_zero hp)
      have hq : q ∈ busy := hbusy q (Nat.zero_lt_of_lt (h.nearer s q s₁ hs hstep))
      have hbusy₁ : ∀ p, 0 < left s₁ p → p ∈ busy := by
        intro r hr
        by_cases hrq : r = q
        · exact hrq ▸ hq
        · rw [h.others s q s₁ hs hstep r hrq] at hr
          exact hbusy r hr
      obtain ⟨ps, s', hrun, hend⟩ :=
        ih _ (hn ▸ h.sum_lt hs hstep hq) (h.keeps s q s₁ hs hstep) hbusy₁ rfl
      exact ⟨q :: ps, s', Option.bind_eq_some_iff.mpr ⟨s₁, hstep, hrun⟩, hend⟩

end Ending

end Apue.Completion
