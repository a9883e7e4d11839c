import Mathlib.Data.List.Basic
import Mathlib.Data.Int.Notation

/-!
The descriptor table of a process. A slot is free or refers to an open file, and a call
that needs a new descriptor takes the lowest free slot. The length of the table is the
greatest number of open files.
-/
namespace Apue.Descriptors

variable {F : Type}

abbrev Table (F : Type) := List (Option F)

namespace Table

/-- The open file to which a descriptor refers. -/
def file (t : Table F) (fd : ℤ) : Option F := if fd < 0 then none else (t[fd.toNat]?).join

/-- The lowest free slot. -/
def lowest (t : Table F) : Option ℕ := t.findIdx? Option.isNone

/-- The number of free slots. -/
def free (t : Table F) : ℕ := t.countP Option.isNone

/-- A new descriptor for the same open file, or -1. -/
def dup (t : Table F) (fd : ℤ) : ℤ × Table F :=
  match t.file fd, t.lowest with
  | some f, some i => (i, t.set i (some f))
  | _, _ => (-1, t)

/-- Whether the descriptor was open; then its slot is free. -/
def close (t : Table F) (fd : ℤ) : Bool × Table F :=
  if (t.file fd).isSome then (true, t.set fd.toNat none) else (false, t)

/-- The descriptor `newfd` is closed if it is open, and made to refer to the open file of
`fd`; if they are equal nothing changes. -/
def dup2 (t : Table F) (fd newfd : ℤ) : ℤ × Table F :=
  match t.file fd with
  | none => (-1, t)
  | some f =>
    if newfd < 0 ∨ t.length ≤ newfd then (-1, t)
    else if newfd = fd then (newfd, t)
    else (newfd, t.set newfd.toNat (some f))

variable {t : Table F} {f : F} {i : ℕ} {fd : ℤ}

@[simp] theorem file_natCast : t.file i = (t[i]?).join := by
  rw [file, if_neg (Int.not_lt.mpr (Int.natCast_nonneg i)), Int.toNat_natCast]

theorem file_eq_some : t.file i = some f ↔ t[i]? = some (some f) := by
  rw [file_natCast, Option.join_eq_some_iff]

/-- An open descriptor is an index into the table. -/
theorem exists_of_file (h : t.file fd = some f) : ∃ i : ℕ, fd = i ∧ t[i]? = some (some f) := by
  rw [file] at h
  split at h
  · cases h
  · exact ⟨fd.toNat, (Int.toNat_of_nonneg (Int.not_lt.mp ‹_›)).symm, Option.join_eq_some_iff.mp h⟩

theorem isNone_getElem {h : i < t.length} : t[i].isNone = true ↔ t[i]? = some none := by
  rw [List.getElem?_eq_getElem h, Option.some.injEq, Option.isNone_iff_eq_none]

theorem lowest_eq_some : t.lowest = some i ↔
    t[i]? = some none ∧ ∀ j, j < i → t[j]? ≠ some none := by
  rw [lowest, List.findIdx?_eq_some_iff_getElem]
  constructor
  · rintro ⟨hi, hfree, hbelow⟩
    exact ⟨isNone_getElem.mp hfree, fun j hj hnone => hbelow j hj (isNone_getElem.mpr hnone)⟩
  · rintro ⟨hfree, hbelow⟩
    obtain ⟨hi, -⟩ := List.getElem?_eq_some_iff.mp hfree
    exact ⟨hi, isNone_getElem.mpr hfree, fun j hj hnone => hbelow j hj (isNone_getElem.mp hnone)⟩

theorem lowest_eq_none : t.lowest = none ↔ ∀ j : ℕ, t[j]? ≠ some none := by
  rw [lowest, List.findIdx?_eq_none_iff]
  constructor
  · intro h j hj
    have hmem := h none (List.mem_of_getElem? hj)
    cases hmem
  · intro h slot hslot
    obtain ⟨j, hj⟩ := List.mem_iff_getElem?.mp hslot
    cases slot with
    | none => exact absurd hj (h j)
    | some f => rfl

theorem free_pos (h : t[i]? = some none) : 0 < t.free :=
  List.countP_pos_iff.mpr ⟨none, List.mem_of_getElem? h, rfl⟩

/-- A free slot that is taken. -/
theorem free_set (h : t[i]? = some none) (f : F) : Table.free (t.set i (some f)) + 1 = t.free := by
  obtain ⟨hi, hnone⟩ := List.getElem?_eq_some_iff.mp h
  have hpos := free_pos h
  unfold free at hpos ⊢
  rw [List.countP_set hi, hnone]
  simp only [Option.isNone_none, Option.isNone_some, if_true, Bool.false_eq_true, if_false]
  omega

/-- A slot that was free is free again. -/
theorem set_none (h : t[i]? = some none) : t.set i none = t := by
  obtain ⟨hi, hnone⟩ := List.getElem?_eq_some_iff.mp h
  rw [← hnone, List.set_getElem_self]

theorem dup_open (ht : t.file fd = some f) (hi : t.lowest = some i) :
    t.dup fd = ((i : ℤ), t.set i (some f)) := by
  rw [dup, ht, hi]

theorem dup_full (hi : t.lowest = none) : t.dup fd = (-1, t) := by
  rw [dup, hi]
  cases t.file fd <;> rfl

theorem dup_closed (ht : t.file fd = none) : t.dup fd = (-1, t) := by
  rw [dup, ht]

theorem close_open (ht : t[i]? = some (some f)) : t.close i = (true, t.set i none) := by
  rw [close, file_eq_some.mpr ht, Option.isSome_some, if_pos rfl, Int.toNat_natCast]

theorem close_closed (ht : t.file fd = none) : t.close fd = (false, t) := by
  rw [close, ht]
  rfl

theorem file_set (hi : i < t.length) (slot : Option F) (j : ℕ) :
    Table.file (t.set i slot) j = if j = i then slot else t.file j := by
  rw [file_natCast, file_natCast, List.getElem?_set]
  by_cases hij : i = j
  · rw [if_pos hij, if_pos (hij ▸ hi), if_pos hij.symm]
    rfl
  · rw [if_neg hij, if_neg (Ne.symm hij)]

theorem lt_of_file (h : t.file i = some f) : i < t.length :=
  (List.getElem?_eq_some_iff.mp (file_eq_some.mp h)).1

theorem length_close (t : Table F) (fd : ℤ) : (t.close fd).2.length = t.length := by
  unfold close
  split
  · exact List.length_set
  · rfl

/-- After close the descriptor refers to nothing, and the others are as they were. -/
theorem file_close (t : Table F) (i j : ℕ) :
    (t.close i).2.file j = if j = i then none else t.file j := by
  cases hfile : t.file i with
  | none =>
    rw [close_closed hfile]
    split
    · rename_i hji
      rw [hji, hfile]
    · rfl
  | some f =>
    rw [close_open (file_eq_some.mp hfile)]
    exact file_set (lt_of_file hfile) none j

theorem length_dup2 (t : Table F) (fd newfd : ℤ) : (t.dup2 fd newfd).2.length = t.length := by
  unfold dup2
  split
  · rfl
  · split
    · rfl
    · split
      · rfl
      · exact List.length_set

theorem file_dup2 {k : ℕ} (hfile : t.file i = some f) (hk : k < t.length) (j : ℕ) :
    (t.dup2 i k).2.file j = if j = k then some f else t.file j := by
  unfold dup2
  rw [hfile]
  have hin : ¬ ((k : ℤ) < 0 ∨ (t.length : ℤ) ≤ k) := by omega
  simp only [if_neg hin]
  by_cases hik : (k : ℤ) = i
  · rw [if_pos hik]
    split
    · rename_i hjk
      rw [hjk, hik, hfile]
    · rfl
  · rw [if_neg hik, Int.toNat_natCast]
    exact file_set hk (some f) j

/-- A table is what its descriptors refer to. -/
theorem ext_file {t' : Table F} (hlen : t.length = t'.length)
    (h : ∀ i : ℕ, t.file i = t'.file i) : t = t' := by
  refine List.ext_getElem hlen fun i hi hi' => ?_
  have hslot := h i
  rw [file_natCast, file_natCast, List.getElem?_eq_getElem hi,
    List.getElem?_eq_getElem hi'] at hslot
  exact hslot

theorem lowest_file (h : t.lowest = some i) : i < t.length ∧ t.file i = none := by
  have hfree := (lowest_eq_some.mp h).1
  refine ⟨(List.getElem?_eq_some_iff.mp hfree).1, ?_⟩
  rw [file_natCast, hfree]
  rfl

end Table

end Apue.Descriptors
