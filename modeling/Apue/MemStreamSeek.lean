import Apue.MemStreamRuns

/-!
Seeks in a memory stream. The target is stored in an int before it is compared with the end,
so what the seek does is decided by the target modulo 2 ^ 32.
-/
namespace Apue.MemStream

/-- A seek to a target that is computed without overflow. -/
def exactSeek (ms : Stream) (pos : ℤ) (whence : Whence) : Result × Stream :=
  let target := ms.base whence + pos
  if 0 ≤ target ∧ target ≤ ms.vsize then (⟨target, []⟩, { ms with curpos := target.toNat })
  else (⟨-1, []⟩, ms)

/-- The target fits in an int; or it is no place of the stream, and neither is the value from
0 to 2 ^ 31 - 1 that it is the same as modulo 2 ^ 32, if there is one. -/
def TargetFits (ms : Stream) (pos : ℤ) (whence : Whence) : Prop :=
  let target := ms.base whence + pos
  (-2 ^ 31 ≤ target ∧ target < 2 ^ 31) ∨
    ((target < 0 ∨ ms.vsize < target) ∧
      (2 ^ 31 ≤ target % 2 ^ 32 ∨ ms.vsize < target % 2 ^ 32))

/-- A predicate on each seek of a run, with the stream before the seek. -/
def AtSeeks (P : Stream → ℤ → Whence → Prop) : Stream → List Op → Prop
  | _, [] => True
  | ms, op :: ops =>
    (∀ pos whence, op = .seek pos whence → P ms pos whence) ∧
      ∀ result ms', step ms op = some (result, ms') → AtSeeks P ms' ops

theorem toInt_mod (v : ℤ) : toInt (v % 2 ^ 64) = toInt v := by
  unfold toInt
  rw [Int.bmod_def, Int.bmod_def]
  omega

/-- The int that a value from 0 on is stored as. -/
theorem toInt_eq_or (v : ℤ) :
    (v % 2 ^ 32 < 2 ^ 31 ∧ toInt v = v % 2 ^ 32) ∨ (2 ^ 31 ≤ v % 2 ^ 32 ∧ toInt v < 0) := by
  unfold toInt
  rw [Int.bmod_def]
  omega

theorem toInt_eq_self_iff (v : ℤ) : toInt v = v ↔ -2 ^ 31 ≤ v ∧ v < 2 ^ 31 := by
  unfold toInt
  rw [Int.bmod_def]
  omega

/-- One seek does what the exact seek does exactly when its target fits. -/
theorem mstreamSeek_eq_iff (ms : Stream) (pos : ℤ) (whence : Whence) :
    mstreamSeek ms pos whence = exactSeek ms pos whence ↔ TargetFits ms pos whence := by
  unfold mstreamSeek exactSeek TargetFits
  simp only [toInt_mod]
  have hself := toInt_eq_self_iff (ms.base whence + pos)
  have hint := toInt_eq_or (ms.base whence + pos)
  generalize ms.base whence + pos = target at hself hint ⊢
  by_cases hfit : -2 ^ 31 ≤ target ∧ target < 2 ^ 31
  · refine iff_of_true ?_ (Or.inl hfit)
    rw [hself.mpr hfit]
    by_cases hplace : 0 ≤ target ∧ target ≤ ms.vsize
    · rw [if_neg (by omega), if_pos hplace]
    · rw [if_pos (by omega), if_neg hplace]
  · by_cases hplace : 0 ≤ target ∧ target ≤ ms.vsize
    · -- the exact seek returns the target, which is no int
      refine iff_of_false (fun heq => ?_) (by omega)
      rw [if_pos hplace] at heq
      have hvalue := congrArg (fun r => r.1.value) heq
      split at hvalue
      · change -1 = target at hvalue
        omega
      · exact hfit (hself.mp hvalue)
    · rw [if_neg hplace]
      by_cases hrange : toInt target < 0 ∨ (ms.vsize : ℤ) < toInt target
      · exact iff_of_true (if_pos hrange) (by omega)
      · refine iff_of_false (fun heq => ?_) (by omega)
        rw [if_neg hrange] at heq
        have hvalue : toInt target = -1 := congrArg (fun r => r.1.value) heq
        omega

/-- In a run all seeks are exact exactly when all their targets fit. -/
theorem exact_seeks_iff (ms : Stream) (ops : List Op) :
    AtSeeks (fun ms pos whence => mstreamSeek ms pos whence = exactSeek ms pos whence) ms ops ↔
      AtSeeks TargetFits ms ops := by
  simp only [mstreamSeek_eq_iff]

/-- A seek by 2 ^ 32 in a stream of three bytes is a seek to its start. -/
theorem seek_not_exact :
    fmemopen true (fun _ => 97) 3 ['r'] =
        some ⟨⟨3, fun _ => 97⟩, 3, 0, ⟨true, false, false, false, false⟩⟩ ∧
      ¬ AtSeeks (fun ms pos whence => mstreamSeek ms pos whence = exactSeek ms pos whence)
        ⟨⟨3, fun _ => 97⟩, 3, 0, ⟨true, false, false, false, false⟩⟩ [.seek (2 ^ 32) .set] := by
  refine ⟨rfl, fun h => ?_⟩
  have hvalue := congrArg (fun r => r.1.value) (h.1 _ _ rfl)
  revert hvalue
  decide +kernel

end Apue.MemStream
