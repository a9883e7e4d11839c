import Apue.Bitops
import Mathlib.Order.Bounds.Basic

/-!
The alignment of a value, down and up. Both functions refuse an alignment that is not a power of
two, but the test of bit_align_up refuses only 0, and the sum that it masks may be greater than
any 32-bit word.
-/
namespace Apue.Bitops

open LowBits

def bitAlignUp (value alignment : BitVec 32) : BitVec 32 :=
  if alignment == 0#32 && !bitIsPowerOfTwo alignment then -1#32
  else (value + alignment - 1#32) &&& ~~~(alignment - 1#32)

def bitAlignDown (value alignment : BitVec 32) : BitVec 32 :=
  if !bitIsPowerOfTwo alignment then -1#32 else value &&& -alignment

/-- Both functions return the error value for an alignment that is not a power of two. For
another one they return the multiples next to the value, and the error value where a multiple
is too great. -/
def Brackets (value alignment : BitVec 32) : Prop :=
  ((¬ ∃ k, alignment.toNat = 2 ^ k) →
    bitAlignUp value alignment = -1#32 ∧ bitAlignDown value alignment = -1#32) ∧
  ((∃ k, alignment.toNat = 2 ^ k) →
    IsGreatest {x | alignment.toNat ∣ x ∧ x ≤ value.toNat} (bitAlignDown value alignment).toNat ∧
    ∀ x, IsLeast {x | alignment.toNat ∣ x ∧ value.toNat ≤ x} x →
      if x < 2 ^ 32 then (bitAlignUp value alignment).toNat = x
      else bitAlignUp value alignment = -1#32)

theorem isGreatest_multiple {a : ℕ} (ha : 0 < a) (v : ℕ) :
    IsGreatest {x | a ∣ x ∧ x ≤ v} (v / a * a) := by
  refine ⟨⟨Nat.dvd_mul_left a _, Nat.div_mul_le_self v a⟩, ?_⟩
  rintro x ⟨⟨q, rfl⟩, hle⟩
  rw [Nat.mul_comm a q] at hle ⊢
  exact Nat.mul_le_mul_right a ((Nat.le_div_iff_mul_le ha).mpr hle)

theorem isLeast_multiple {a : ℕ} (ha : 0 < a) (v : ℕ) :
    IsLeast {x | a ∣ x ∧ v ≤ x} ((v + a - 1) / a * a) := by
  refine ⟨⟨Nat.dvd_mul_left a _, ?_⟩, ?_⟩
  · have hnext := Nat.lt_div_mul_add ha (a := v + a - 1)
    omega
  · rintro x ⟨⟨q, rfl⟩, hle⟩
    rw [Nat.mul_comm a q] at hle ⊢
    refine Nat.mul_le_mul_right a (Nat.le_of_lt_succ ((Nat.div_lt_iff_lt_mul ha).mpr ?_))
    rw [Nat.succ_mul]
    omega

variable {value alignment : BitVec 32} {k : ℕ}

theorem exists_toNat_eq_iff :
    (∃ k, alignment.toNat = 2 ^ k) ↔ bitIsPowerOfTwo alignment = true := by
  rw [isPowerOfTwo_iff_pow]
  constructor
  · rintro ⟨k, hk⟩
    have hlt : 2 ^ k < 2 ^ 32 := hk ▸ alignment.isLt
    have hk' := (Nat.pow_lt_pow_iff_right Nat.one_lt_two).mp hlt
    exact ⟨k, hk', BitVec.eq_of_toNat_eq (hk.trans (toNat_twoPow hk').symm)⟩
  · rintro ⟨k, hk, rfl⟩
    exact ⟨k, toNat_twoPow hk⟩

theorem toNat_bitAlignDown (hk : k < 32) (value : BitVec 32) :
    (bitAlignDown value (BitVec.twoPow 32 k)).toNat = value.toNat / 2 ^ k * 2 ^ k := by
  have hpow : bitIsPowerOfTwo (BitVec.twoPow 32 k) = true := isPowerOfTwo_iff_pow.mpr ⟨k, hk, rfl⟩
  rw [bitAlignDown, hpow]
  exact toNat_and_neg_twoPow hk value

/-- The multiple that bit_align_up finds is that of the sum in 32 bits. -/
theorem toNat_bitAlignUp (hk : k < 32) (value : BitVec 32) :
    (bitAlignUp value (BitVec.twoPow 32 k)).toNat =
      (value.toNat + 2 ^ k - 1) % 2 ^ 32 / 2 ^ k * 2 ^ k := by
  have hpow : bitIsPowerOfTwo (BitVec.twoPow 32 k) = true := isPowerOfTwo_iff_pow.mpr ⟨k, hk, rfl⟩
  have hpos := Nat.two_pow_pos k
  rw [bitAlignUp, hpow, Bool.not_true, Bool.and_false, if_neg Bool.false_ne_true,
    ← BitVec.not_neg (BitVec.twoPow 32 k),
    BitVec.not_not, toNat_and_neg_twoPow hk, BitVec.toNat_sub, BitVec.toNat_add, toNat_twoPow hk]
  have hone : (1#32).toNat = 1 := rfl
  rw [hone, Nat.add_mod_mod]
  have hsum : 2 ^ 32 - 1 + (value.toNat + 2 ^ k) = value.toNat + 2 ^ k - 1 + 2 ^ 32 := by omega
  rw [hsum, Nat.add_mod_right]

/-- The mask of bit_align_up is not all ones for an alignment other than 1. -/
theorem bitAlignUp_ne (hzero : alignment ≠ 0#32) (hpow : ¬ bitIsPowerOfTwo alignment = true) :
    bitAlignUp value alignment ≠ -1#32 := by
  have htest : ¬ (alignment == 0#32 && !bitIsPowerOfTwo alignment) = true := by simp [hzero]
  rw [bitAlignUp, if_neg htest]
  intro hones
  have hmask : alignment - 1#32 = 0#32 := by
    refine BitVec.eq_of_getLsbD_eq fun i hi => ?_
    have hbit := congrArg (BitVec.getLsbD · i) hones
    simp only [BitVec.neg_one_eq_allOnes, BitVec.getLsbD_allOnes, BitVec.getLsbD_and,
      BitVec.getLsbD_not, hi, decide_true, Bool.true_and, Bool.and_eq_true,
      Bool.not_eq_true'] at hbit
    rw [hbit.2, BitVec.getLsbD_zero]
  refine hpow (isPowerOfTwo_iff_pow.mpr ⟨0, by decide, ?_⟩)
  rw [← BitVec.sub_add_cancel alignment 1#32, hmask]
  rfl

/-- Where the sum does not fit into 32 bits the result is 0. -/
theorem toNat_bitAlignUp_wrapped (hk : k < 32) (hwrap : 2 ^ 32 < value.toNat + 2 ^ k) :
    (bitAlignUp value (BitVec.twoPow 32 k)).toNat = 0 := by
  have hlt := value.isLt
  have hpow : 2 ^ k < 2 ^ 32 := Nat.pow_lt_pow_right Nat.one_lt_two hk
  have hmod : (value.toNat + 2 ^ k - 1) % 2 ^ 32 < 2 ^ k := by
    rw [Nat.mod_eq_sub_mod (by omega), Nat.mod_eq_of_lt (by omega)]
    omega
  rw [toNat_bitAlignUp hk, Nat.div_eq_of_lt hmod, Nat.zero_mul]

theorem toNat_bitAlignUp_of_le (hk : k < 32) (hfit : value.toNat + 2 ^ k ≤ 2 ^ 32) :
    (bitAlignUp value (BitVec.twoPow 32 k)).toNat = (value.toNat + 2 ^ k - 1) / 2 ^ k * 2 ^ k := by
  have hpos := Nat.two_pow_pos k
  rw [toNat_bitAlignUp hk, Nat.mod_eq_of_lt (by omega)]

theorem brackets_twoPow_iff (hk : k < 32) :
    Brackets value (BitVec.twoPow 32 k) ↔ value.toNat + 2 ^ k ≤ 2 ^ 32 := by
  have hpos := Nat.two_pow_pos k
  have hexists : ∃ n, (BitVec.twoPow 32 k).toNat = 2 ^ n := ⟨k, toNat_twoPow hk⟩
  have hleast := isLeast_multiple hpos value.toNat
  unfold Brackets
  rw [toNat_bitAlignDown hk, toNat_twoPow hk] at *
  constructor
  · rintro ⟨-, h⟩
    by_contra hwrap
    have hzero := toNat_bitAlignUp_wrapped hk (Nat.lt_of_not_le hwrap)
    have hup := (h hexists).2 _ hleast
    split at hup
    · have hle := hleast.1.2
      have hpow : 2 ^ k < 2 ^ 32 := Nat.pow_lt_pow_right Nat.one_lt_two hk
      omega
    · rw [hup] at hzero
      exact absurd hzero (by decide)
  · intro hfit
    refine ⟨fun hnot => absurd hexists hnot, fun _ => ⟨isGreatest_multiple hpos value.toNat, ?_⟩⟩
    intro x hx
    obtain rfl := hx.unique hleast
    have hlt : (value.toNat + 2 ^ k - 1) / 2 ^ k * 2 ^ k < 2 ^ 32 := by
      have hle := Nat.div_mul_le_self (value.toNat + 2 ^ k - 1) (2 ^ k)
      omega
    rw [if_pos hlt, toNat_bitAlignUp_of_le hk hfit]

/-- When the two functions do what they are for. -/
theorem brackets_iff (value alignment : BitVec 32) :
    Brackets value alignment ↔ alignment = 0#32 ∨
      (∃ k, alignment.toNat = 2 ^ k) ∧ value.toNat + alignment.toNat ≤ 2 ^ 32 := by
  by_cases hpow : bitIsPowerOfTwo alignment = true
  · have hexists := exists_toNat_eq_iff.mpr hpow
    obtain ⟨k, hk, rfl⟩ := isPowerOfTwo_iff_pow.mp hpow
    have hne : BitVec.twoPow 32 k ≠ 0#32 := (bitIsPowerOfTwo_iff.mp hpow).1
    rw [brackets_twoPow_iff hk, or_iff_right hne, and_iff_right hexists, toNat_twoPow hk]
  · have hnot : ¬ ∃ k, alignment.toNat = 2 ^ k := mt exists_toNat_eq_iff.mp hpow
    rw [or_iff_left fun h => hnot h.1]
    constructor
    · rintro ⟨h, -⟩
      by_contra hzero
      exact bitAlignUp_ne hzero hpow (h hnot).1
    · rintro rfl
      exact ⟨fun _ => ⟨rfl, rfl⟩, fun h => absurd h hnot⟩

/-- An alignment of 3 is not refused: the result is 5. -/
theorem not_brackets_three : ¬ ∀ value alignment : BitVec 32, Brackets value alignment := by
  intro h
  have hnot : ¬ ∃ k, (3#32).toNat = 2 ^ k := by
    rw [exists_toNat_eq_iff]
    decide
  exact absurd ((h 5#32 3#32).1 hnot).1 (by decide)

end Apue.Bitops
