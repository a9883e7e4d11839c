import Apue.Loops
import Apue.PrinterStatus

/-!
The loops of printer_status. Those over the responses and over the fields get more data or
come nearer to the end of the buffer with each round, but the search for the end of the
header stops two bytes before the end of the data and gets more data only at the end. Where
the blank line is missing it stays there for ever.
-/
namespace Apue.Printer

open Programs Decimal Buffers Print

theorem not_info_of_success {code : ℤ} (h : httpSuccess code = true) : ¬ httpInfo code = true := by
  unfold httpSuccess at h
  unfold httpInfo
  grind

/-- The bytes that are to come, and the reads it takes to get them. -/
def weight (pieces : List (List Byte)) : ℕ := pieces.flatten.length + pieces.length

/-- A read that returns something leaves less for the next one. -/
theorem weight_connection {nbytes : ℕ} {pieces : List (List Byte)}
    (h : (connection nbytes pieces).1 ≠ []) :
    weight (connection nbytes pieces).2 < weight pieces := by
  cases pieces with
  | nil => exact absurd rfl h
  | cons piece pieces =>
    unfold weight
    by_cases hfit : piece.length ≤ nbytes
    · rw [connection, if_pos hfit]
      simp only [List.flatten_cons, List.length_append, List.length_cons]
      omega
    · rw [connection, if_neg hfit] at h ⊢
      have hpos : 0 < nbytes := by
        refine Nat.pos_of_ne_zero fun hzero => h ?_
        simp only [hzero, List.take_zero]
      simp only [List.flatten_cons, List.length_append, List.length_cons, List.length_drop]
      omega

theorem seekC_bounds {bp : Buffer Byte} {left i j : ℕ} (h : seekC bp left i = some j) :
    i ≤ j ∧ j < bp.size := by
  induction left generalizing i with
  | zero =>
    obtain ⟨b, hb, rfl⟩ := Option.map_eq_some_iff.mp h
    exact ⟨Nat.le_refl i, (Buffer.get_eq_some.mp hb).1⟩
  | succ left ih =>
    obtain ⟨b, hb, h⟩ := Option.bind_eq_some_iff.mp h
    split at h
    · obtain ⟨hle, hlt⟩ := ih h
      exact ⟨Nat.le_of_succ_le hle, hlt⟩
    · obtain rfl := Option.some.inj h
      exact ⟨Nat.le_refl i, (Buffer.get_eq_some.mp hb).1⟩

/-- Where there is no blank line the search goes no further than two bytes before the end
of the data. -/
theorem seekBlank_stop {bp : Buffer Byte} {left i j : ℕ}
    (h : seekBlank bp left i = some (false, j)) : j = i + left := by
  induction left generalizing i with
  | zero =>
    obtain rfl := (Prod.mk.inj (Option.some.inj h)).2
    rfl
  | succ left ih =>
    obtain ⟨b, hb, h⟩ := Option.bind_eq_some_iff.mp h
    split at h
    · cases h
    · rw [ih h]
      omega

theorem mapM_get_isSome {b : Buffer Byte} {p k : ℕ} :
    ((List.range' p k).mapM b.get).isSome = true ↔ ∀ q, p ≤ q → q < p + k → q < b.size := by
  induction k generalizing p with
  | zero => exact iff_of_true rfl fun q hq hq' => by omega
  | succ k ih =>
    rw [List.range'_succ, List.mapM_cons]
    by_cases hp : p < b.size
    · have hget : b.get p = some (b.cell p) := if_pos hp
      have hrest : (((List.range' (p + 1) k).mapM b.get).bind fun rest =>
          some (b.cell p :: rest)).isSome = ((List.range' (p + 1) k).mapM b.get).isSome := by
        cases (List.range' (p + 1) k).mapM b.get <;> rfl
      rw [hget]
      change (((List.range' (p + 1) k).mapM b.get).bind fun rest =>
        some (b.cell p :: rest)).isSome = true ↔ _
      rw [hrest, ih]
      refine ⟨fun h q hq hq' => ?_, fun h q hq hq' => h q (by omega) (by omega)⟩
      rcases Nat.eq_or_lt_of_le hq with rfl | hlt
      · exact hp
      · exact h q hlt (by omega)
    · have hget : b.get p = none := if_neg hp
      rw [hget]
      exact iff_of_false nofun fun h => hp (h p (le_refl p) (by omega))

/-- The two numbers of the IPP header are read within the first eight bytes. -/
theorem ntoh_isSome {b : Buffer Byte} {p : ℕ} :
    ((ntoh b (p + 2) 2).isSome = true ∧ (ntoh b (p + 4) 4).isSome = true) ↔ p + 8 ≤ b.size := by
  unfold ntoh
  rw [Option.isSome_map, Option.isSome_map, mapM_get_isSome, mapM_get_isSome]
  refine ⟨fun h => ?_, fun h => ⟨fun q hq hq' => by omega, fun q hq hq' => by omega⟩⟩
  have hlast := h.2 (p + 7) (by omega) (by omega)
  omega

end Apue.Printer
