import Mathlib.Data.List.Basic
import Mathlib.Data.Nat.Find
import Mathlib.Data.Nat.Notation
import Mathlib.Order.Basic
import Mathlib.Algebra.Group.Nat.Defs

/-!
The lowest set bit of a word. In two's complement -m and m have the same lowest set bit and
no other common one, and m - 1 differs from m from there on downwards. So -m & m is that bit
alone and m & (m - 1) is m without it, and taking one after the other goes through the set
bits in ascending order.
-/
namespace Apue.LowBits

variable {w : ℕ}

/-- The places of the set bits, in ascending order. -/
def setBits (m : BitVec w) : List ℕ := (List.range w).filter m.getLsbD

/-- The lowest set bit is at `p`. -/
def IsLowest (m : BitVec w) (p : ℕ) : Prop :=
  m.getLsbD p = true ∧ ∀ j, j < p → m.getLsbD j = false

variable {m : BitVec w} {p i : ℕ}

theorem mem_setBits : i ∈ setBits m ↔ m.getLsbD i = true := by
  unfold setBits
  rw [List.mem_filter, List.mem_range]
  exact and_iff_right_of_imp BitVec.lt_of_getLsbD

theorem setBits_sorted (m : BitVec w) : (setBits m).Pairwise (· < ·) :=
  List.pairwise_lt_range.filter _

theorem setBits_eq_nil : setBits m = [] ↔ m = 0#w := by
  rw [List.eq_nil_iff_forall_not_mem]
  constructor
  · intro h
    refine BitVec.eq_of_getLsbD_eq fun i hi => ?_
    have hnot := h i
    rw [mem_setBits, Bool.not_eq_true] at hnot
    rw [hnot, BitVec.getLsbD_zero]
  · rintro rfl i hi
    rw [mem_setBits, BitVec.getLsbD_zero] at hi
    cases hi

theorem exists_isLowest (hm : m ≠ 0#w) : ∃ p, IsLowest m p := by
  have hset : ∃ p, m.getLsbD p = true := by
    obtain ⟨p, hp⟩ := List.exists_mem_of_ne_nil _ (mt setBits_eq_nil.mp hm)
    exact ⟨p, mem_setBits.mp hp⟩
  refine ⟨Nat.find hset, Nat.find_spec hset, fun j hj => ?_⟩
  exact Bool.eq_false_iff.mpr (Nat.find_min hset hj)

theorem IsLowest.lt (h : IsLowest m p) : p < w := BitVec.lt_of_getLsbD h.1

theorem IsLowest.unique {q : ℕ} (h : IsLowest m p) (hq : IsLowest m q) : p = q := by
  rcases Nat.lt_trichotomy p q with hlt | heq | hlt
  · exact absurd (h.1.symm.trans (hq.2 p hlt)) nofun
  · exact heq
  · exact absurd (hq.1.symm.trans (h.2 q hlt)) nofun

/-- There is a set bit below `i` if and only if the lowest one is. -/
theorem IsLowest.exists_below (h : IsLowest m p) :
    (∃ j < i, m.getLsbD j = true) ↔ p < i := by
  constructor
  · rintro ⟨j, hj, hset⟩
    refine Nat.lt_of_le_of_lt (Nat.le_of_not_lt fun hlt => ?_) hj
    rw [h.2 j hlt] at hset
    cases hset
  · exact fun hp => ⟨p, hp, h.1⟩

theorem IsLowest.getLsbD_neg (h : IsLowest m p) (hi : i < w) :
    (-m).getLsbD i = (m.getLsbD i ^^ decide (p < i)) := by
  rw [BitVec.getLsbD_neg, decide_eq_true hi, Bool.true_and, decide_eq_decide.mpr h.exists_below]

/-- -m & m is the lowest set bit. -/
theorem IsLowest.neg_and (h : IsLowest m p) : -m &&& m = BitVec.twoPow w p := by
  refine BitVec.eq_of_getLsbD_eq fun i hi => ?_
  rw [BitVec.getLsbD_and, h.getLsbD_neg hi, BitVec.getLsbD_twoPow]
  rcases Nat.lt_trichotomy i p with hlt | rfl | hlt
  · rw [h.2 i hlt]
    simp [Nat.ne_of_gt hlt]
  · rw [h.1]
    simp [hi]
  · cases m.getLsbD i <;> simp [hlt, Nat.ne_of_lt hlt]

/-- m & (m - 1) is the word without its lowest set bit. -/
theorem IsLowest.getLsbD_and_sub_one (h : IsLowest m p) (i : ℕ) :
    (m &&& (m - 1#w)).getLsbD i = (m.getLsbD i && decide (i ≠ p)) := by
  rw [← BitVec.not_neg, BitVec.getLsbD_and, BitVec.getLsbD_not]
  by_cases hi : i < w
  · rw [h.getLsbD_neg hi, decide_eq_true hi, Bool.true_and]
    rcases Nat.lt_trichotomy i p with hlt | rfl | hlt
    · rw [h.2 i hlt]
      rfl
    · rw [h.1]
      simp
    · cases m.getLsbD i <;> simp [hlt, Nat.ne_of_gt hlt]
  · rw [BitVec.getLsbD_of_ge m i (Nat.le_of_not_lt hi)]
    rfl

/-- The lowest set bit comes first, then the others. -/
theorem IsLowest.setBits_eq (h : IsLowest m p) : setBits m = p :: setBits (m &&& (m - 1#w)) := by
  have hrest : setBits (m &&& (m - 1#w)) = (setBits m).filter fun i => decide (i ≠ p) := by
    unfold setBits
    rw [List.filter_filter]
    refine List.filter_congr fun i _ => ?_
    rw [h.getLsbD_and_sub_one, Bool.and_comm]
  have hsorted := setBits_sorted m
  rw [hrest]
  cases hbits : setBits m with
  | nil =>
    have hmem := mem_setBits.mpr h.1
    rw [hbits] at hmem
    cases hmem
  | cons q rest =>
    rw [hbits] at hsorted
    obtain ⟨hless, -⟩ := List.pairwise_cons.mp hsorted
    have hmem : ∀ i, i ∈ q :: rest ↔ m.getLsbD i = true := fun i => hbits ▸ mem_setBits
    have hq : IsLowest m q := by
      refine ⟨(hmem q).mp List.mem_cons_self, fun j hj => Bool.eq_false_iff.mpr fun hset => ?_⟩
      rcases List.mem_cons.mp ((hmem j).mpr hset) with rfl | hj'
      · exact Nat.lt_irrefl j hj
      · exact Nat.lt_asymm hj (hless j hj')
    obtain rfl := hq.unique h
    rw [List.filter_cons_of_neg (by simp)]
    refine congrArg _ (List.filter_eq_self.mpr fun i hi => ?_).symm
    exact decide_eq_true (Nat.ne_of_gt (hless i hi))

theorem and_sub_one_lt (hm : m ≠ 0#w) : (m &&& (m - 1#w)).toNat < m.toNat := by
  obtain ⟨p, h⟩ := exists_isLowest hm
  have hle : (m &&& (m - 1#w)).toNat ≤ m.toNat := by
    rw [BitVec.toNat_and]
    exact Nat.and_le_left
  refine Nat.lt_of_le_of_ne hle fun heq => ?_
  have hbit := h.getLsbD_and_sub_one p
  rw [BitVec.eq_of_toNat_eq heq, h.1] at hbit
  simp at hbit

/-- The lowest set bits that are taken one after the other, each with the words before it
was cleared. -/
def lowBits (m : BitVec w) : List (BitVec w) :=
  if _ : m = 0#w then [] else (-m &&& m) :: lowBits (m &&& (m - 1#w))
termination_by m.toNat
decreasing_by exact and_sub_one_lt ‹_›

/-- What every round of such a loop keeps: an induction on the set bits that are left. -/
theorem induction_lowBits {motive : BitVec w → Prop} (hzero : motive 0#w)
    (hclear : ∀ m : BitVec w, m ≠ 0#w → motive (m &&& (m - 1#w)) → motive m) (m : BitVec w) :
    motive m := by
  induction hn : m.toNat using Nat.strong_induction_on generalizing m with
  | _ n ih =>
    by_cases hm : m = 0#w
    · subst hm
      exact hzero
    · exact hclear m hm (ih _ (hn ▸ and_sub_one_lt hm) _ rfl)

/-- Each set bit is taken exactly once, and they are taken in ascending order. -/
theorem lowBits_eq (m : BitVec w) : lowBits m = (setBits m).map (BitVec.twoPow w) := by
  induction m using induction_lowBits with
  | hzero =>
    rw [lowBits, dif_pos rfl, setBits_eq_nil.mpr rfl]
    rfl
  | hclear m hm ih =>
    obtain ⟨p, h⟩ := exists_isLowest hm
    rw [lowBits, dif_neg hm, ih, h.setBits_eq, h.neg_and, List.map_cons]

theorem IsLowest.ctz_eq (h : IsLowest m p) : m.ctz.toNat = p := by
  have hm : m ≠ 0#w := by
    rintro rfl
    have hset := h.1
    rw [BitVec.getLsbD_zero] at hset
    cases hset
  have hctz : IsLowest m m.ctz.toNat :=
    ⟨BitVec.getLsbD_true_ctz_of_ne_zero hm, fun _ => BitVec.getLsbD_false_of_lt_ctz⟩
  exact hctz.unique h

theorem isLowest_twoPow (hp : p < w) : IsLowest (BitVec.twoPow w p) p := by
  refine ⟨?_, fun j hj => ?_⟩
  · rw [BitVec.getLsbD_twoPow, decide_eq_true hp, decide_eq_true rfl]
    rfl
  · rw [BitVec.getLsbD_twoPow, decide_eq_false (Nat.ne_of_gt hj), Bool.and_false]

theorem toNat_twoPow (hp : p < w) : (BitVec.twoPow w p).toNat = 2 ^ p := by
  rw [BitVec.toNat_twoPow, Nat.mod_eq_of_lt (Nat.pow_lt_pow_right Nat.one_lt_two hp)]

/-- One bit is set: the word is a power of two. -/
theorem IsLowest.and_sub_one_eq_zero (h : IsLowest m p) :
    m &&& (m - 1#w) = 0#w ↔ m = BitVec.twoPow w p := by
  rw [← setBits_eq_nil]
  constructor
  · intro hrest
    refine BitVec.eq_of_getLsbD_eq fun i hi => ?_
    have hi' : m.getLsbD i = true ↔ i = p := by
      rw [← mem_setBits, h.setBits_eq, hrest, List.mem_singleton]
    rw [BitVec.getLsbD_twoPow, decide_eq_true h.lt, Bool.true_and, Bool.eq_iff_iff, hi',
      decide_eq_true_iff]
    exact eq_comm
  · rintro heq
    rw [setBits_eq_nil]
    refine BitVec.eq_of_getLsbD_eq fun i hi => ?_
    rw [h.getLsbD_and_sub_one, heq, BitVec.getLsbD_twoPow, BitVec.getLsbD_zero]
    by_cases hip : i = p
    · simp [hip]
    · simp [Ne.symm hip]

/-- -2^p is the mask of the bits from `p` on. -/
theorem toNat_and_neg_twoPow (hp : p < w) (m : BitVec w) :
    (m &&& -BitVec.twoPow w p).toNat = m.toNat / 2 ^ p * 2 ^ p := by
  refine Nat.eq_of_testBit_eq fun i => ?_
  rw [Nat.testBit_mul_two_pow, Nat.testBit_div_two_pow, BitVec.testBit_toNat, BitVec.getLsbD_and]
  by_cases hi : i < w
  · rw [(isLowest_twoPow hp).getLsbD_neg hi, BitVec.getLsbD_twoPow, decide_eq_true hp,
      Bool.true_and]
    rcases Nat.lt_trichotomy i p with hlt | rfl | hlt
    · simp [Nat.ne_of_gt hlt, Nat.not_le_of_lt hlt, Nat.lt_asymm hlt]
    · simpa using (BitVec.testBit_toNat m).symm
    · rw [Nat.sub_add_cancel (Nat.le_of_lt hlt), BitVec.testBit_toNat]
      simp [Nat.ne_of_lt hlt, hlt, Nat.le_of_lt hlt]
  · by_cases hpi : p ≤ i
    · rw [Nat.sub_add_cancel hpi, BitVec.testBit_toNat,
        BitVec.getLsbD_of_ge m i (Nat.le_of_not_lt hi), Bool.false_and, Bool.and_false]
    · omega

theorem length_setBits_le (m : BitVec w) : (setBits m).length ≤ w := by
  have hle := List.length_filter_le m.getLsbD (List.range w)
  rwa [List.length_range] at hle

end Apue.LowBits
