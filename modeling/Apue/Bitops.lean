import Apue.LowBits

/-!
The bit operations of librlt on 32-bit words, and pr_mask3, which lists the signals of a signal
mask. The loops take the lowest set bit of a word, one after the other. The functions follow
bitops.c and signal.c; what pr_mask3 prints around the signal numbers is left out.
-/
namespace Apue.Bitops

open LowBits

def bitLsbValue (value : BitVec 32) : BitVec 32 := -value &&& value

/-- __builtin_ffs: one more than the place of the lowest set bit, or 0. -/
def ffs {w : ℕ} (x : BitVec w) : ℤ := if x = 0#w then 0 else x.ctz.toNat + 1

def bitLsbPosition (value : BitVec 32) : ℤ := if value = 0#32 then -1 else ffs value - 1

def bitClearLsb (value : BitVec 32) : BitVec 32 := value &&& (value - 1#32)

def bitIsPowerOfTwo (value : BitVec 32) : Bool :=
  value != 0#32 && !(value &&& (value - 1#32) != 0#32)

theorem clear_lt {w : ℕ} {m : BitVec w} (hm : 0#w < m) : (m &&& (m - 1#w)).toNat < m.toNat :=
  and_sub_one_lt (m.pos_iff_ne_zero.mp hm)

/-- The loop of bit_count_set; count has the type uint8_t. -/
def countLoop (value : BitVec 32) (count : BitVec 8) : BitVec 8 :=
  if _hv : 0#32 < value then countLoop (value &&& (value - 1#32)) (count + 1#8) else count
termination_by value.toNat
decreasing_by exact clear_lt _hv

def bitCountSet (value : BitVec 32) : BitVec 8 := countLoop value 0#8

/-- A signal set of Linux: the signal `signo` is the bit `signo - 1`. -/
abbrev Sigset := Fin 16 → BitVec 64

def sigismember (mask : Sigset) (signo : ℕ) : Bool :=
  (mask (Fin.ofNat 16 ((signo - 1) / 64))).getLsbD ((signo - 1) % 64)

/-- The loop of pr_mask3, on a word of any width: the signal numbers that it prints. -/
def maskLoop {w : ℕ} (m : BitVec w) : List ℕ :=
  if _hm : 0#w < m then ((-m &&& m).ctz.toNat + 1) :: maskLoop (m &&& (m - 1#w)) else []
termination_by m.toNat
decreasing_by exact clear_lt _hm

def prMask3 (mask : Sigset) : List ℕ := maskLoop (mask 0)

variable {w : ℕ} {m : BitVec w}

/-- Each round of the loop counts one set bit. -/
theorem countLoop_eq (value : BitVec 32) (count : BitVec 8) :
    countLoop value count = count + BitVec.ofNat 8 (setBits value).length := by
  induction value using induction_lowBits generalizing count with
  | hzero =>
    rw [countLoop, dif_neg (BitVec.lt_irrefl _), setBits_eq_nil.mpr rfl]
    exact (BitVec.add_zero count).symm
  | hclear value hv ih =>
    obtain ⟨p, h⟩ := exists_isLowest hv
    rw [countLoop, dif_pos (value.pos_iff_ne_zero.mpr hv), ih, h.setBits_eq, List.length_cons,
      BitVec.add_assoc, Nat.add_comm, ← BitVec.ofNat_add]

theorem toNat_bitCountSet (value : BitVec 32) :
    (bitCountSet value).toNat = (setBits value).length := by
  have hle := length_setBits_le value
  rw [bitCountSet, countLoop_eq, BitVec.zero_add, BitVec.toNat_ofNat, Nat.mod_eq_of_lt (by omega)]

theorem bitLsbPosition_eq {value : BitVec 32} {p : ℕ} (h : IsLowest value p) :
    bitLsbPosition value = p := by
  have hv : value ≠ 0#32 := by
    rintro rfl
    have hset := h.1
    rw [BitVec.getLsbD_zero] at hset
    cases hset
  rw [bitLsbPosition, if_neg hv, ffs, if_neg hv, h.ctz_eq, Int.add_sub_cancel]

theorem bitIsPowerOfTwo_iff {value : BitVec 32} :
    bitIsPowerOfTwo value = true ↔ value ≠ 0#32 ∧ value &&& (value - 1#32) = 0#32 := by
  simp [bitIsPowerOfTwo]

/-- One set bit is a power of two. -/
theorem isPowerOfTwo_iff_length {value : BitVec 32} :
    bitIsPowerOfTwo value = true ↔ (setBits value).length = 1 := by
  rw [bitIsPowerOfTwo_iff]
  by_cases hv : value = 0#32
  · rw [setBits_eq_nil.mpr hv]
    exact iff_of_false (fun h => h.1 hv) nofun
  · obtain ⟨p, h⟩ := exists_isLowest hv
    rw [and_iff_right hv, h.setBits_eq, List.length_cons, Nat.add_eq_right, List.length_eq_zero_iff,
      setBits_eq_nil]

theorem isPowerOfTwo_iff_pow {value : BitVec 32} :
    bitIsPowerOfTwo value = true ↔ ∃ k < 32, value = BitVec.twoPow 32 k := by
  rw [bitIsPowerOfTwo_iff]
  constructor
  · rintro ⟨hv, hclear⟩
    obtain ⟨p, h⟩ := exists_isLowest hv
    exact ⟨p, h.lt, h.and_sub_one_eq_zero.mp hclear⟩
  · rintro ⟨k, hk, rfl⟩
    have h := isLowest_twoPow hk
    refine ⟨fun hzero => ?_, h.and_sub_one_eq_zero.mpr rfl⟩
    have hmem := mem_setBits.mpr h.1
    rw [setBits_eq_nil.mpr hzero] at hmem
    cases hmem

/-- Each round of the loop lists one signal. -/
theorem maskLoop_eq (m : BitVec w) : maskLoop m = (setBits m).map (· + 1) := by
  induction m using induction_lowBits with
  | hzero =>
    rw [maskLoop, dif_neg (BitVec.lt_irrefl _), setBits_eq_nil.mpr rfl]
    rfl
  | hclear m hm ih =>
    obtain ⟨p, h⟩ := exists_isLowest hm
    rw [maskLoop, dif_pos (m.pos_iff_ne_zero.mpr hm), ih, h.neg_and, (isLowest_twoPow h.lt).ctz_eq,
      h.setBits_eq, List.map_cons]

/-- The signals of Linux. -/
def signals : List ℕ := List.range' 1 64

theorem prMask3_eq (mask : Sigset) : prMask3 mask = signals.filter (sigismember mask) := by
  have hbit : ∀ i ∈ List.range 64, (mask 0).getLsbD i = sigismember mask (1 + i) := by
    intro i hi
    rw [List.mem_range] at hi
    unfold sigismember
    rw [Nat.add_sub_cancel_left, Nat.div_eq_of_lt hi, Nat.mod_eq_of_lt hi]
    rfl
  rw [prMask3, maskLoop_eq, setBits, List.filter_congr hbit, signals, List.range'_eq_map_range,
    List.filter_map]
  refine List.map_congr_left fun i _ => Nat.add_comm i 1

theorem set_bits_visited (value : BitVec 32) (mask : Sigset) :
    lowBits value = (setBits value).map (BitVec.twoPow 32) ∧
    lowBits (mask 0) = (setBits (mask 0)).map (BitVec.twoPow 64) ∧
    (bitCountSet value).toNat = (setBits value).length ∧
    (value ≠ 0#32 → ∃ p, IsLowest value p ∧ bitLsbPosition value = p ∧
      (bitLsbValue value).toNat = 2 ^ p ∧
      ∀ i, (bitClearLsb value).getLsbD i = (value.getLsbD i && decide (i ≠ p))) ∧
    (bitIsPowerOfTwo value = true ↔ (setBits value).length = 1) ∧
    prMask3 mask = signals.filter (sigismember mask) := by
  refine ⟨lowBits_eq value, lowBits_eq (mask 0), toNat_bitCountSet value, fun hv => ?_,
    isPowerOfTwo_iff_length, prMask3_eq mask⟩
  obtain ⟨p, h⟩ := exists_isLowest hv
  refine ⟨p, h, bitLsbPosition_eq h, ?_, h.getLsbD_and_sub_one⟩
  rw [bitLsbValue, h.neg_and, toNat_twoPow h.lt]

end Apue.Bitops
