import Mathlib.Data.Nat.Notation
import Apue.Programs

/-!
Loops that are cut off after a number of rounds. A program with such loops is given for
every bound, and what it does is what it does with all bounds that are big enough. It
returns if this is neither to stop nor to be cut off.
-/
namespace Apue.Programs

variable {S : Signature} {α β τ : Type} (handle : (c : S.Call) → τ → S.Ret c × τ)

/-- With every bound that is big enough the program comes to `end`. -/
def Settles (p : ℕ → Prog S α) (s : τ) (final : Outcome α × τ) : Prop :=
  ∃ bound, ∀ fuel, bound ≤ fuel → (p fuel).run handle s = final

/-- It returns. -/
def Completes (p : ℕ → Prog S α) (s : τ) : Prop :=
  ∃ a s', Settles handle p s (.ok a, s')

variable {handle} {p q : ℕ → Prog S α} {s : τ} {final : Outcome α × τ}

namespace Settles

theorem unique {final' : Outcome α × τ} (h : Settles handle p s final)
    (h' : Settles handle p s final') : final = final' := by
  obtain ⟨bound, h⟩ := h
  obtain ⟨bound', h'⟩ := h'
  exact (h _ (Nat.le_max_left bound bound')).symm.trans (h' _ (Nat.le_max_right bound bound'))

/-- A program without such loops. -/
theorem of_run {p : Prog S α} (h : p.run handle s = final) :
    Settles handle (fun _ => p) s final :=
  ⟨0, fun _ _ => h⟩

/-- The first round of a loop, whose other rounds have a bound that is smaller by one. -/
theorem succ (hround : ∀ fuel, p (fuel + 1) = q fuel) (h : Settles handle q s final) :
    Settles handle p s final := by
  obtain ⟨bound, h⟩ := h
  refine ⟨bound + 1, fun fuel hfuel => ?_⟩
  obtain ⟨fuel, rfl⟩ := Nat.exists_eq_add_one_of_ne_zero (Nat.ne_of_gt (Nat.lt_of_lt_of_le
    (Nat.succ_pos bound) hfuel))
  rw [hround]
  exact h fuel (Nat.le_of_succ_le_succ hfuel)

end Settles

namespace Completes

theorem ret (a : α) : Completes handle (fun _ => .ret a) s := ⟨a, s, .of_run rfl⟩

end Completes

end Apue.Programs
