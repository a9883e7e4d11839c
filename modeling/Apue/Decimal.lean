import Mathlib.Data.Nat.Basic
import Mathlib.Data.List.TakeWhile
import Mathlib.Data.UInt
import Mathlib.Tactic.IntervalCases
import Mathlib.Tactic.Ring

/-!
Decimal numbers as ASCII bytes: the text that printf writes for a number, with
or without a field width, and the value that atol reads back. Reading skips
leading white space, takes an optional sign and stops at the first byte that
is not a digit. Values are not cut to a machine word: a caller that stores one
in a fixed-width variable converts it there.
-/
namespace Apue.Decimal

abbrev Byte := UInt8

/-- A condition on the bytes of a text is decided along the text, and not for all 256 bytes. -/
instance (priority := high) decidableForallMem (p : Byte → Prop) [DecidablePred p]
    (text : List Byte) : Decidable (∀ c ∈ text, p c) := List.decidableBAll p text

/-- The C locale's isspace. -/
def isSpace (b : Byte) : Bool := b == 32 || (9 ≤ b && b ≤ 13)

/-- The C locale's isdigit. -/
def isDigit (b : Byte) : Bool := 48 ≤ b && b ≤ 57

def digitByte (d : ℕ) : Byte := UInt8.ofNat (48 + d)

/-- The fuel is only there to make the recursion structural. -/
def decimalFuel : ℕ → ℕ → List Byte
  | 0, n => [digitByte (n % 10)]
  | f + 1, n => if n < 10 then [digitByte n] else decimalFuel f (n / 10) ++ [digitByte (n % 10)]

/-- `%d` of a number that is not negative. -/
def decimal (n : ℕ) : List Byte := decimalFuel n n

/-- `%lld`. -/
def decimalInt (v : ℤ) : List Byte :=
  if v < 0 then 45 :: decimal v.natAbs else decimal v.natAbs

/-- A field width: blanks on the left, nothing cut off. -/
def padLeft (width : ℕ) (text : List Byte) : List Byte :=
  List.replicate (width - text.length) 32 ++ text

/-- The value of the digits at the front of a text. -/
def leadingValue (text : List Byte) : ℕ :=
  (text.takeWhile isDigit).foldl (fun a b => 10 * a + (b.toNat - 48)) 0

/-- atol and atoi. -/
def atol (text : List Byte) : ℤ :=
  match text.dropWhile isSpace with
  | [] => 0
  | b :: rest =>
    if b = 45 then -(leadingValue rest : ℤ)
    else if b = 43 then leadingValue rest
    else leadingValue (b :: rest)

theorem decimalFuel_of_le (f g n : ℕ) (hf : n ≤ f) (hg : n ≤ g) :
    decimalFuel f n = decimalFuel g n := by
  induction f generalizing g n with
  | zero =>
    obtain rfl : n = 0 := by omega
    cases g <;> rfl
  | succ f ih =>
    cases g with
    | zero =>
      obtain rfl : n = 0 := by omega
      rfl
    | succ g =>
      simp only [decimalFuel]
      split
      · rfl
      · rw [ih g (n / 10) (by omega) (by omega)]

theorem decimal_eq (n : ℕ) :
    decimal n = if n < 10 then [digitByte n] else decimal (n / 10) ++ [digitByte (n % 10)] := by
  unfold decimal
  cases n with
  | zero => rfl
  | succ m =>
    simp only [decimalFuel]
    split
    · rfl
    · rw [decimalFuel_of_le m ((m + 1) / 10) ((m + 1) / 10) (by omega) (le_refl _)]

theorem digitByte_toNat {d : ℕ} (hd : d < 10) : (digitByte d).toNat = 48 + d := by
  simp only [digitByte, UInt8.toNat_ofNat']
  omega

theorem isDigit_digitByte {d : ℕ} (hd : d < 10) : isDigit (digitByte d) = true := by
  interval_cases d <;> decide

theorem decimal_digits (n : ℕ) : ∀ b ∈ decimal n, isDigit b = true := by
  induction n using Nat.strong_induction_on with
  | _ n ih =>
    intro b hb
    rw [decimal_eq] at hb
    split at hb
    · rename_i hn
      rw [List.mem_singleton] at hb
      exact hb ▸ isDigit_digitByte hn
    · rename_i hn
      rcases List.mem_append.mp hb with hb | hb
      · exact ih (n / 10) (by omega) b hb
      · rw [List.mem_singleton] at hb
        exact hb ▸ isDigit_digitByte (Nat.mod_lt _ (by omega))

theorem decimal_ne_nil (n : ℕ) : decimal n ≠ [] := by
  rw [decimal_eq]
  split <;> simp

theorem length_decimal_pos (n : ℕ) : 0 < (decimal n).length :=
  List.length_pos_of_ne_nil (decimal_ne_nil n)

/-- A number below ten to the power of a positive width fits that width. -/
theorem length_decimal_le (k n : ℕ) (hn : n < 10 ^ (k + 1)) : (decimal n).length ≤ k + 1 := by
  induction k generalizing n with
  | zero =>
    rw [decimal_eq, if_pos (by omega)]
    rfl
  | succ k ih =>
    rw [decimal_eq]
    split
    · simp only [List.length_singleton]
      omega
    · have hdiv : n / 10 < 10 ^ (k + 1) := by
        apply Nat.div_lt_of_lt_mul
        calc n < 10 ^ (k + 1 + 1) := hn
          _ = 10 * 10 ^ (k + 1) := by ring
      simp only [List.length_append, List.length_singleton]
      have := ih (n / 10) hdiv
      omega

theorem length_padLeft (width : ℕ) (text : List Byte) (h : text.length ≤ width) :
    (padLeft width text).length = width := by
  simp only [padLeft, List.length_append, List.length_replicate]
  omega

theorem foldl_decimal (n : ℕ) :
    (decimal n).foldl (fun a b => 10 * a + (b.toNat - 48)) 0 = n := by
  induction n using Nat.strong_induction_on with
  | _ n ih =>
    rw [decimal_eq]
    split
    · rename_i hn
      simp only [List.foldl_cons, List.foldl_nil, digitByte_toNat hn]
      omega
    · rename_i hn
      rw [List.foldl_append, ih (n / 10) (by omega)]
      simp only [List.foldl_cons, List.foldl_nil, digitByte_toNat (Nat.mod_lt n (by omega : 0 < 10))]
      omega

theorem leadingValue_decimal (n : ℕ) : leadingValue (decimal n) = n := by
  rw [leadingValue, List.takeWhile_eq_self_iff.mpr (decimal_digits n), foldl_decimal]

theorem isDigit_iff {b : Byte} : isDigit b = true ↔ 48 ≤ b.toNat ∧ b.toNat ≤ 57 := by
  simp only [isDigit, Bool.and_eq_true, decide_eq_true_eq, UInt8.le_iff_toNat_le]
  rfl

theorem not_sign_of_isDigit {b : Byte} (h : isDigit b = true) :
    b ≠ 45 ∧ b ≠ 43 ∧ isSpace b = false := by
  refine ⟨?_, ?_, ?_⟩
  · rintro rfl
    revert h
    decide
  · rintro rfl
    revert h
    decide
  · by_contra hs
    simp only [isSpace, Bool.not_eq_false, Bool.or_eq_true, beq_iff_eq, Bool.and_eq_true,
      decide_eq_true_eq, UInt8.le_iff_toNat_le] at hs
    have h9 : (9 : UInt8).toNat = 9 := rfl
    have h13 : (13 : UInt8).toNat = 13 := rfl
    rw [h9, h13] at hs
    rcases hs with rfl | hs
    · revert h
      decide
    · have hrange := isDigit_iff.mp h
      omega

private theorem dropWhile_blanks (k : ℕ) (text : List Byte) :
    (List.replicate k 32 ++ text).dropWhile isSpace = text.dropWhile isSpace := by
  induction k with
  | zero => rfl
  | succ k ih =>
    rw [List.replicate_succ, List.cons_append, List.dropWhile_cons_of_pos (by decide)]
    exact ih

theorem atol_blanks_digits (k : ℕ) {digits : List Byte} (h : ∀ b ∈ digits, isDigit b = true) :
    atol (List.replicate k 32 ++ digits) = leadingValue digits := by
  unfold atol
  rw [dropWhile_blanks]
  cases digits with
  | nil => rfl
  | cons b rest =>
    obtain ⟨hminus, hplus, hspace⟩ := not_sign_of_isDigit (h b List.mem_cons_self)
    rw [List.dropWhile_cons_of_neg (by simp [hspace])]
    simp only [if_neg hminus, if_neg hplus]

/-- Reading back what was printed, with any number of leading blanks. -/
theorem atol_blanks_decimal (k n : ℕ) : atol (List.replicate k 32 ++ decimal n) = n := by
  rw [atol_blanks_digits k (decimal_digits n), leadingValue_decimal]

theorem atol_padLeft (width n : ℕ) : atol (padLeft width (decimal n)) = n :=
  atol_blanks_decimal _ n

theorem atol_decimal (n : ℕ) : atol (decimal n) = n := atol_blanks_decimal 0 n

theorem decimalInt_natCast (n : ℕ) : decimalInt (n : ℤ) = decimal n := by
  rw [decimalInt, if_neg (by omega), Int.natAbs_natCast]

/-- No printed number contains a byte that is not a digit. -/
theorem not_mem_decimal {b : Byte} (hb : isDigit b = false) (n : ℕ) : b ∉ decimal n := by
  intro hmem
  rw [decimal_digits n b hmem] at hb
  exact Bool.noConfusion hb

/-- A number with its sign is read back as well. -/
theorem atol_decimalInt (v : ℤ) : atol (decimalInt v) = v := by
  rw [decimalInt]
  split
  · rw [atol, List.dropWhile_cons_of_neg (by decide)]
    simp only [if_pos]
    rw [leadingValue_decimal]
    omega
  · rw [atol_decimal]
    omega

/-- A number needs at least as many digits as its size says. -/
theorem lt_pow_length_decimal (n : ℕ) : n < 10 ^ (decimal n).length := by
  induction n using Nat.strong_induction_on with
  | _ n ih =>
    rw [decimal_eq]
    split
    · rename_i hn
      simpa using hn
    · rename_i hn
      have h := ih (n / 10) (by omega)
      rw [List.length_append, List.length_singleton, pow_succ]
      omega

theorem leadingValue_lt {digits : List Byte} (h : ∀ b ∈ digits, isDigit b = true) :
    leadingValue digits < 10 ^ digits.length := by
  unfold leadingValue
  rw [List.takeWhile_eq_self_iff.mpr h]
  induction digits using List.reverseRecOn with
  | nil => decide
  | append_singleton digits b ih =>
    have hb := isDigit_iff.mp (h b (List.mem_append_right _ List.mem_cons_self))
    have hdigits := ih fun c hc => h c (List.mem_append_left _ hc)
    rw [List.foldl_append, List.foldl_cons, List.foldl_nil, List.length_append,
      List.length_singleton, pow_succ]
    omega

end Apue.Decimal
