import Mathlib.Algebra.BigOperators.Fin
import Mathlib.Algebra.Order.Group.Multiset
import Mathlib.Data.List.Sort

/-!
A merge of sorted runs. What was taken out so far is sorted and not above what is left of any
run, and together they are the whole. To take out a least head keeps this so, and a merge that
has taken everything has sorted the whole.
-/
namespace Apue.SortedRuns

variable {α ι : Type}

/-- A list is its consecutive runs together. -/
theorem sum_runs (n m : ℕ) (l : List α) (hlen : l.length = n * m) :
    ∑ i : Fin n, ((l.drop (i * m)).take m : Multiset α) = l := by
  induction n generalizing l with
  | zero =>
    rw [Nat.zero_mul] at hlen
    rw [List.length_eq_zero_iff.mp hlen]
    rfl
  | succ n ih =>
    have htail : (l.drop m).length = n * m := by
      rw [List.length_drop, hlen, Nat.add_mul, Nat.one_mul, Nat.add_sub_cancel]
    have hrest : ∑ i : Fin n, ((l.drop ((i.succ : Fin (n + 1)) * m)).take m : Multiset α) =
        l.drop m := by
      rw [← ih (l.drop m) htail]
      refine Finset.sum_congr rfl fun i _ => ?_
      rw [List.drop_drop, Fin.val_succ, Nat.add_mul, Nat.one_mul, Nat.add_comm]
    rw [Fin.sum_univ_succ, hrest, Fin.val_zero, Nat.zero_mul, List.drop_zero, Multiset.coe_add,
      List.take_append_drop]

variable [Preorder α] [Fintype ι]

/-- A merge that has taken `out`, with the rest of each run. -/
structure Merging (whole : Multiset α) (rest : ι → List α) (out : List α) : Prop where
  rest_sorted : ∀ i, (rest i).Pairwise (· ≤ ·)
  out_sorted : out.Pairwise (· ≤ ·)
  out_le : ∀ a ∈ out, ∀ i, ∀ b ∈ rest i, a ≤ b
  whole_eq : (out : Multiset α) + ∑ i, (rest i : Multiset α) = whole

/-- A head that is not above another one is not above what is behind that one. -/
theorem le_of_le_head {run : List α} (h : run.Pairwise (· ≤ ·)) {a : α}
    (ha : ∀ b, run.head? = some b → a ≤ b) : ∀ b ∈ run, a ≤ b := by
  intro b hb
  cases run with
  | nil => exact absurd hb List.not_mem_nil
  | cons c run =>
    have hc := ha c rfl
    rcases List.mem_cons.mp hb with rfl | hb
    · exact hc
    · exact hc.trans ((List.pairwise_cons.mp h).1 b hb)

namespace Merging

variable {whole : Multiset α} {rest : ι → List α} {out : List α}

theorem start {runs : ι → List α} (h : ∀ i, (runs i).Pairwise (· ≤ ·)) :
    Merging (∑ i, (runs i : Multiset α)) runs [] :=
  ⟨h, List.Pairwise.nil, fun _ ha => absurd ha List.not_mem_nil, by simp⟩

/-- A least head is taken from its run. -/
theorem take [DecidableEq ι] (h : Merging whole rest out) {j : ι} {a : α} {run : List α}
    (hj : rest j = a :: run) (hmin : ∀ i b, (rest i).head? = some b → a ≤ b) :
    Merging whole (Function.update rest j run) (out ++ [a]) := by
  have hsub : ∀ i, ∀ b ∈ Function.update rest j run i, b ∈ rest i := by
    intro i b hb
    by_cases hij : i = j
    · subst hij
      rw [Function.update_self] at hb
      rw [hj]
      exact List.mem_cons_of_mem a hb
    · rwa [Function.update_of_ne hij] at hb
  refine ⟨fun i => ?_, ?_, ?_, ?_⟩
  · by_cases hij : i = j
    · subst hij
      rw [Function.update_self]
      exact (List.pairwise_cons.mp (hj ▸ h.rest_sorted i)).2
    · rw [Function.update_of_ne hij]
      exact h.rest_sorted i
  · refine List.pairwise_append.mpr ⟨h.out_sorted, List.pairwise_singleton _ a, ?_⟩
    intro b hb c hc
    obtain rfl := List.mem_singleton.mp hc
    exact h.out_le b hb j c (hj ▸ List.mem_cons_self)
  · intro b hb i c hc
    rcases List.mem_append.mp hb with hb | hb
    · exact h.out_le b hb i c (hsub i c hc)
    · obtain rfl := List.mem_singleton.mp hb
      exact le_of_le_head (h.rest_sorted i) (hmin i) c (hsub i c hc)
  · have hrest : ∑ i, (Function.update rest j run i : Multiset α) + {a} =
        ∑ i, (rest i : Multiset α) := by
      rw [← Finset.add_sum_erase _ _ (Finset.mem_univ j),
        ← Finset.add_sum_erase (Finset.univ : Finset ι) (fun i => (rest i : Multiset α))
          (Finset.mem_univ j), Function.update_self, hj, add_right_comm]
      congr 1
      · rw [← Multiset.cons_coe, ← Multiset.singleton_add, add_comm]
      · refine Finset.sum_congr rfl fun i hi => ?_
        rw [Function.update_of_ne (Finset.ne_of_mem_erase hi)]
    rw [← h.whole_eq, ← hrest, ← Multiset.coe_add, Multiset.coe_singleton, add_assoc]
    exact congrArg _ (add_comm _ _)

/-- A merge that has not taken everything has a run that is not empty. -/
theorem exists_ne_nil (h : Merging whole rest out) (hcard : out.length < Multiset.card whole) :
    ∃ i, rest i ≠ [] := by
  by_contra hall
  simp only [not_exists, not_not] at hall
  rw [← h.whole_eq] at hcard
  simp [hall] at hcard

/-- A merge that has taken everything has sorted the whole. -/
theorem perm {l : List α} (h : Merging (l : Multiset α) rest out) (hlen : out.length = l.length) :
    out.Perm l := by
  have hcard := congrArg Multiset.card h.whole_eq
  rw [Multiset.card_add, Multiset.coe_card, Multiset.coe_card] at hcard
  have hnone : ∑ i, (rest i : Multiset α) = 0 := Multiset.card_eq_zero.mp (by omega)
  have hwhole := h.whole_eq
  rw [hnone, add_zero] at hwhole
  exact Multiset.coe_eq_coe.mp hwhole

end Merging

end Apue.SortedRuns
