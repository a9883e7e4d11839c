import Apue.Buffers
import Apue.Words

/-!
The function strtok in memory. It takes the next word of the string at a pointer, puts
a terminator behind it and keeps a pointer to what follows for the next call. The words
that were taken before stay where they are, each with its terminator.
-/
namespace Apue.Words

open Buffers

variable {α : Type} [DecidableEq α] {sep : α → Bool} {zero : α}

/-- The word that is found in the string at `s`, the buffer, and the pointer for the next
call. -/
def strtokAt (sep : α → Bool) (zero : α) (b : Buffer α) (s : ℕ) :
    Option (Option ℕ × Buffer α × ℕ) := do
  let ptr ← b.scan sep s
  let c ← b.get ptr
  if c = zero then some (none, b, ptr)
  else do
    let stop ← b.scan (fun v => !sep v && v != zero) ptr
    let e ← b.get stop
    if e = zero then some (some ptr, b, stop)
    else do
      let b ← b.set stop zero
      some (some ptr, b, stop + 1)

/-- The string at `s` with its terminator. -/
def StringAt (zero : α) (b : Buffer α) (s : ℕ) (text : List α) : Prop :=
  b.Holds s (text ++ [zero]) ∧ zero ∉ text

/-- There is one string at a pointer. -/
theorem StringAt.unique {b : Buffer α} {s : ℕ} {text text' : List α} (h : StringAt zero b s text)
    (h' : StringAt zero b s text') : text = text' := by
  have htake : ∀ {text : List α}, StringAt zero b s text →
      b.takeWhile (fun v => v != zero) s = some text := by
    rintro text ⟨hholds, hz⟩
    refine hholds.takeWhile (fun v hv => ?_) (by simp)
    rw [bne_iff_ne]
    rintro rfl
    exact hz hv
  exact Option.some.inj ((htake h).symm.trans (htake h'))

theorem strtokAt_none {b : Buffer α} {s : ℕ} {text : List α} (h : StringAt zero b s text)
    (hzero : sep zero = false) (hnone : strtok sep text = none) :
    strtokAt sep zero b s = some (none, b, s + text.length) := by
  have hwhite : ∀ v ∈ text, sep v = true := by
    unfold strtok at hnone
    split at hnone
    · rename_i hdrop
      exact List.dropWhile_eq_nil_iff.mp hdrop
    · cases hnone
  have hend := (Buffer.holds_append.mp h.1).2.1
  simp only [strtokAt, h.1.scan hwhite hzero, hend, Option.bind_eq_bind, Option.bind_some, if_true]

/-- What a call that finds a word leaves: the word with its terminator, the string for the
next call, and everything before the end of the word as it was. -/
structure Taken (zero : α) (b : Buffer α) (s : ℕ) (pre w rest : List α) (b' : Buffer α)
    (next : ℕ) : Prop where
  word : StringAt zero b' (s + pre.length) w
  string : StringAt zero b' next rest
  word_lt : s + pre.length < s + pre.length + w.length
  word_le : s + pre.length + w.length ≤ next
  same : ∀ j, j < s + pre.length + w.length → b'.get j = b.get j

theorem strtokAt_some {b : Buffer α} {s : ℕ} {text w rest : List α} (h : StringAt zero b s text)
    (hzero : sep zero = false) (hsome : strtok sep text = some (w, rest)) :
    ∃ pre b' next, text.takeWhile sep = pre ∧
      strtokAt sep zero b s = some (some (s + pre.length), b', next) ∧
      Taken zero b s pre w rest b' next := by
  obtain ⟨pre, tail, rfl, hpre, hw, hword, rfl, htail⟩ := strtok_eq_some hsome
  obtain ⟨hholds, hz⟩ := h
  rw [List.append_assoc, List.append_assoc, Buffer.holds_append, Buffer.holds_append] at hholds
  obtain ⟨hfront, hbody, hrest⟩ := hholds
  have hwz : zero ∉ w := fun hmem => hz (by simp [hmem])
  have hpos : 0 < w.length := List.length_pos_iff.mpr hw
  obtain ⟨c, w', rfl⟩ := List.exists_cons_of_ne_nil hw
  have hc : b.get (s + pre.length) = some c := hbody.1
  have hstart : b.scan sep s = some (s + pre.length) :=
    (Buffer.holds_append.mpr ⟨hfront, hc, trivial⟩ : b.Holds s (pre ++ [c])).scan hpre
      (hword c List.mem_cons_self)
  have hcz : c ≠ zero := fun hzero => hwz (hzero ▸ List.mem_cons_self)
  have htake : (pre ++ c :: w' ++ tail).takeWhile sep = pre := by
    rw [List.append_assoc, List.takeWhile_append_of_pos hpre, List.cons_append,
      List.takeWhile_cons_of_neg (by simp [hword c List.mem_cons_self]), List.append_nil]
  have hinside : ∀ v ∈ c :: w', (!sep v && v != zero) = true := by
    intro v hv
    have hvz : v ≠ zero := fun hzero => hwz (hzero ▸ hv)
    simp [hword v hv, hvz]
  cases tail with
  | nil =>
    have hend := hrest.1
    have hstop := (Buffer.holds_append.mpr ⟨hbody, hend, trivial⟩ :
      b.Holds (s + pre.length) (c :: w' ++ [zero])).scan hinside (by simp)
    refine ⟨pre, b, s + pre.length + (c :: w').length, htake, ?_, ?_⟩
    · simp only [strtokAt, hstart, hc, hstop, hend, Option.bind_eq_bind, Option.bind_some,
        if_neg hcz, if_true]
    · exact ⟨⟨Buffer.holds_append.mpr ⟨hbody, hend, trivial⟩, hwz⟩, ⟨hrest, nofun⟩, by omega,
        Nat.le_refl _, fun _ _ => rfl⟩
  | cons d tail =>
    have hd : sep d = true := htail d rfl
    have hdz : d ≠ zero := by
      rintro rfl
      rw [hzero] at hd
      cases hd
    have hend : b.get (s + pre.length + (c :: w').length) = some d := hrest.1
    have hstop := (Buffer.holds_append.mpr ⟨hbody, hend, trivial⟩ :
      b.Holds (s + pre.length) (c :: w' ++ [d])).scan hinside (by simp [hd])
    obtain ⟨b', hset, -, hnull, hsame⟩ :=
      Buffer.set_eq_some (v := zero) (Buffer.get_eq_some.mp hend).1
    refine ⟨pre, b', s + pre.length + (c :: w').length + 1, htake, ?_, ?_⟩
    · simp only [strtokAt, hstart, hc, hstop, hend, hset, Option.bind_eq_bind, Option.bind_some,
        if_neg hcz, if_neg hdz]
    · refine ⟨⟨Buffer.holds_append.mpr ⟨hbody.congr fun j _ hj => hsame j (by omega), hnull,
        trivial⟩, hwz⟩, ⟨hrest.2.congr fun j hj _ => hsame j (by omega), fun hmem => hz ?_⟩,
        by omega, by omega, fun j hj => hsame j (by omega)⟩
      rw [List.drop_one, List.tail_cons] at hmem
      simp [hmem]

end Apue.Words
