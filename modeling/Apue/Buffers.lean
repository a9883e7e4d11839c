import Mathlib.Data.List.Basic
import Mathlib.Data.List.Infix
import Mathlib.Logic.Function.Basic

/-!
Buffers with a size, read and written through an index. What was never stored is
whatever the memory held before, and an access from the size on is not defined:
the operations return none there. A loop that moves an index over a buffer looks at
the cells one after the other, so what it does on a buffer that holds a text is
decided by the text.
-/
namespace Apue.Buffers

variable {α : Type}

structure Buffer (α : Type) where
  size : ℕ
  cell : ℕ → α

namespace Buffer

def get (b : Buffer α) (p : ℕ) : Option α := if p < b.size then some (b.cell p) else none

def set (b : Buffer α) (p : ℕ) (v : α) : Option (Buffer α) :=
  if p < b.size then some { b with cell := Function.update b.cell p v } else none

/-- Store a text that fits behind `off`. -/
def write (b : Buffer α) (off : ℕ) (text : List α) : Buffer α :=
  { b with cell := fun p => if off ≤ p then (text[p - off]?).getD (b.cell p) else b.cell p }

/-- A bigger buffer with the same contents. -/
def grow (b : Buffer α) (n : ℕ) : Buffer α := { b with size := b.size + n }

def scanFuel (p : α → Bool) (b : Buffer α) : ℕ → ℕ → Option ℕ
  | 0, _ => none
  | fuel + 1, i => if p (b.cell i) then scanFuel p b fuel (i + 1) else some i

/-- Move an index on while the cells satisfy a predicate. -/
def scan (p : α → Bool) (b : Buffer α) (i : ℕ) : Option ℕ := scanFuel p b (b.size - i) i

/-- The cells from `i` to the first one that does not satisfy the predicate. -/
def takeWhile (p : α → Bool) (b : Buffer α) (i : ℕ) : Option (List α) :=
  (b.scan p i).map fun j => (List.range' i (j - i)).map b.cell

/-- Compare the cells from `i` on with a text, up to the first difference. -/
def agrees (same : α → α → Bool) (b : Buffer α) : ℕ → List α → Option Bool
  | _, [] => some true
  | i, c :: text => do
    let v ← b.get i
    if same v c then agrees same b (i + 1) text else some false

/-- The cells from `i` on are the text. -/
def Holds (b : Buffer α) : ℕ → List α → Prop
  | _, [] => True
  | i, c :: text => b.get i = some c ∧ b.Holds (i + 1) text

end Buffer

/-- The comparison on a text, where it may come to the end of the text. -/
def begins (same : α → α → Bool) : List α → List α → Option Bool
  | _, [] => some true
  | [], _ :: _ => none
  | v :: text, c :: pattern => if same v c then begins same text pattern else some false

/-- The comparison with the pattern fails at each place of the text, and without a
look at what comes after the text. -/
def Lacks (same : α → α → Bool) (pattern text : List α) : Prop :=
  ∀ s ∈ text.tails, s ≠ [] → begins same s pattern = some false

instance (same : α → α → Bool) (pattern text : List α) [DecidableEq α] :
    Decidable (Lacks same pattern text) :=
  inferInstanceAs (Decidable (∀ s ∈ text.tails, s ≠ [] → begins same s pattern = some false))

namespace Buffer

variable {b : Buffer α} {i : ℕ}

theorem get_eq_some {v : α} : b.get i = some v ↔ i < b.size ∧ b.cell i = v := by
  by_cases hi : i < b.size
  · simp [get, hi]
  · simp [get, hi]

theorem holds_append {text more : List α} :
    b.Holds i (text ++ more) ↔ b.Holds i text ∧ b.Holds (i + text.length) more := by
  induction text generalizing i with
  | nil => simp [Holds]
  | cons c text ih =>
    simp only [List.cons_append, Holds, ih, List.length_cons, and_assoc]
    rw [show i + 1 + text.length = i + (text.length + 1) by omega]

theorem Holds.of_begins {text more : List α} (h : b.Holds i more) (hp : text <+: more) :
    b.Holds i text := by
  obtain ⟨rest, rfl⟩ := hp
  exact (holds_append.mp h).1

/-- A text that is not empty lies within the buffer. -/
theorem Holds.le_size {text : List α} (h : b.Holds i text) (hne : text ≠ []) :
    i + text.length ≤ b.size := by
  induction text generalizing i with
  | nil => exact absurd rfl hne
  | cons c text ih =>
    have hi := (get_eq_some.mp h.1).1
    cases text with
    | nil =>
      simp only [List.length_singleton]
      omega
    | cons d text =>
      have hrest := ih h.2 (List.cons_ne_nil d text)
      simp only [List.length_cons] at hrest ⊢
      omega

/-- What a text says depends on its own cells only. -/
theorem Holds.congr {b' : Buffer α} {text : List α} (h : b.Holds i text)
    (hcell : ∀ j, i ≤ j → j < i + text.length → b'.get j = b.get j) : b'.Holds i text := by
  induction text generalizing i with
  | nil => trivial
  | cons c text ih =>
    simp only [List.length_cons] at hcell
    refine ⟨(hcell i (by omega) (by omega)).trans h.1, ih h.2 fun j hj hj' => ?_⟩
    exact hcell j (by omega) (by omega)

theorem set_eq_some {v : α} (hi : i < b.size) :
    ∃ b', b.set i v = some b' ∧ b'.size = b.size ∧ b'.get i = some v ∧
      ∀ j, j ≠ i → b'.get j = b.get j := by
  refine ⟨{ b with cell := Function.update b.cell i v }, if_pos hi, rfl, ?_, fun j hj => ?_⟩
  · exact get_eq_some.mpr ⟨hi, Function.update_self ..⟩
  · unfold get
    simp only [Function.update_of_ne hj]

theorem get_grow {n v} (h : b.get i = some v) : (b.grow n).get i = some v := by
  obtain ⟨hi, hv⟩ := get_eq_some.mp h
  exact get_eq_some.mpr ⟨Nat.lt_add_right n hi, hv⟩

theorem Holds.grow {text : List α} (h : b.Holds i text) (n : ℕ) : (b.grow n).Holds i text := by
  induction text generalizing i with
  | nil => trivial
  | cons c text ih => exact ⟨get_grow h.1, ih h.2⟩

theorem get_write_of_lt {off : ℕ} (text : List α) (h : i < off) :
    (b.write off text).get i = b.get i := by
  unfold write get
  simp only [if_neg (Nat.not_le.mpr h)]

theorem Holds.write_before {text : List α} (h : b.Holds i text) {off : ℕ} (more : List α)
    (hoff : i + text.length ≤ off) : (b.write off more).Holds i text :=
  h.congr fun _ _ hj => get_write_of_lt more (by omega)

theorem write_holds {off : ℕ} {text : List α} (h : off + text.length ≤ b.size) :
    (b.write off text).Holds off text := by
  have hsuffix : ∀ before after, text = before ++ after →
      (b.write off text).Holds (off + before.length) after := by
    intro before after
    induction after generalizing before with
    | nil => exact fun _ => trivial
    | cons c after ih =>
      intro htext
      refine ⟨get_eq_some.mpr ⟨?_, ?_⟩, ?_⟩
      · have hlen := congrArg List.length htext
        simp only [List.length_append, List.length_cons] at hlen
        change off + before.length < b.size
        omega
      · simp [write, htext]
      · simpa [Nat.add_assoc] using ih (before ++ [c]) (by simp [htext])
  exact hsuffix [] text rfl

/-- A scan comes to a stop within the buffer if there is a cell to stop it. -/
theorem scan_isSome {p : α → Bool} :
    (b.scan p i).isSome = true ↔ ∃ j, i ≤ j ∧ j < b.size ∧ p (b.cell j) = false := by
  have hfuel : ∀ fuel i, (scanFuel p b fuel i).isSome = true ↔
      ∃ j, i ≤ j ∧ j < i + fuel ∧ p (b.cell j) = false := by
    intro fuel
    induction fuel with
    | zero =>
      refine fun i => iff_of_false nofun ?_
      rintro ⟨j, hle, hlt, -⟩
      omega
    | succ fuel ih =>
      intro i
      unfold scanFuel
      by_cases hi : p (b.cell i) = true
      · rw [if_pos hi, ih]
        constructor
        · rintro ⟨j, hle, hlt, hj⟩
          exact ⟨j, by omega, by omega, hj⟩
        · rintro ⟨j, hle, hlt, hj⟩
          have hne : i ≠ j := by
            rintro rfl
            exact absurd hi (Bool.eq_false_iff.mp hj)
          exact ⟨j, by omega, by omega, hj⟩
      · rw [if_neg hi]
        exact iff_of_true rfl ⟨i, le_refl i, by omega, Bool.eq_false_iff.mpr hi⟩
  unfold Buffer.scan
  rw [hfuel]
  refine exists_congr fun j => and_congr_right fun hle => ?_
  rw [show j < i + (b.size - i) ↔ j < b.size by omega]

/-- A scan stops at the first cell that does not satisfy the predicate. -/
theorem Holds.scan {p : α → Bool} {text : List α} {c : α} (h : b.Holds i (text ++ [c]))
    (htext : ∀ v ∈ text, p v = true) (hc : p c = false) : b.scan p i = some (i + text.length) := by
  have hfuel : ∀ (text : List α) (fuel i : ℕ), b.Holds i (text ++ [c]) →
      (∀ v ∈ text, p v = true) → text.length < fuel →
      scanFuel p b fuel i = some (i + text.length) := by
    intro text
    induction text with
    | nil =>
      intro fuel i h _ hfuel
      obtain ⟨fuel, rfl⟩ := Nat.exists_eq_add_of_lt hfuel
      have hcell := (get_eq_some.mp h.1).2
      simp [scanFuel, hcell, hc]
    | cons v text ih =>
      intro fuel i h hp hfuel
      obtain ⟨fuel, rfl⟩ := Nat.exists_eq_add_of_lt hfuel
      have hcell := (get_eq_some.mp h.1).2
      simp only [scanFuel, hcell, hp v List.mem_cons_self, if_true]
      rw [ih _ (i + 1) h.2 (fun w hw => hp w (List.mem_cons_of_mem v hw)) (by
        simp only [List.length_cons]; omega)]
      simp only [List.length_cons, Option.some.injEq]
      omega
  have hsize := h.le_size (List.append_ne_nil_of_right_ne_nil text (List.cons_ne_nil c []))
  simp only [List.length_append, List.length_singleton] at hsize
  exact hfuel text _ i h htext (by omega)

theorem Holds.takeWhile {p : α → Bool} {text : List α} {c : α} (h : b.Holds i (text ++ [c]))
    (htext : ∀ v ∈ text, p v = true) (hc : p c = false) : b.takeWhile p i = some text := by
  have hcells : ∀ (text : List α) (i : ℕ), b.Holds i text →
      (List.range' i text.length).map b.cell = text := by
    intro text
    induction text with
    | nil => exact fun _ _ => rfl
    | cons v text ih =>
      intro i h
      simp only [List.length_cons, List.range'_succ, List.map_cons, (get_eq_some.mp h.1).2,
        ih (i + 1) h.2]
  unfold Buffer.takeWhile
  rw [h.scan htext hc, Option.map_some, Nat.add_sub_cancel_left,
    hcells text i (holds_append.mp h).1]

theorem Holds.mapM_get {text : List α} (h : b.Holds i text) :
    (List.range' i text.length).mapM b.get = some text := by
  induction text generalizing i with
  | nil => rfl
  | cons c text ih =>
    simp only [List.length_cons, List.range'_succ, List.mapM_cons, h.1, ih h.2,
      Option.bind_eq_bind, Option.bind_some, Option.pure_def]

/-- What the text decides, the buffer that holds it decides alike. -/
theorem Holds.agrees {same : α → α → Bool} {text pattern : List α} (h : b.Holds i text) {r : Bool}
    (hr : begins same text pattern = some r) : b.agrees same i pattern = some r := by
  induction pattern generalizing i text with
  | nil => simpa [begins, Buffer.agrees] using hr
  | cons c pattern ih =>
    cases text with
    | nil => simp [begins] at hr
    | cons v text =>
      simp only [begins] at hr
      simp only [Buffer.agrees, h.1, Option.bind_eq_bind, Option.bind_some]
      split at hr
      · rename_i hsame
        rw [if_pos hsame]
        exact ih h.2 hr
      · rename_i hsame
        rw [if_neg hsame]
        exact hr

end Buffer

theorem Lacks.tail {same : α → α → Bool} {pattern text : List α} {c : α}
    (h : Lacks same pattern (c :: text)) : Lacks same pattern text :=
  fun s hs => h s (by simp only [List.tails_cons, List.mem_cons]; exact Or.inr hs)

theorem Lacks.drop {same : α → α → Bool} {pattern text : List α}
    (h : Lacks same pattern text) (n : ℕ) : Lacks same pattern (text.drop n) :=
  fun s hs => h s ((List.mem_tails _ _).mpr
    (((List.mem_tails _ _).mp hs).trans (List.drop_suffix n text)))

theorem Lacks.head {same : α → α → Bool} {pattern text : List α} {c : α}
    (h : Lacks same pattern (c :: text)) : begins same (c :: text) pattern = some false :=
  h _ ((List.mem_tails _ _).mpr (List.suffix_refl _)) (List.cons_ne_nil c text)

theorem Lacks.cons {same : α → α → Bool} {pattern text : List α} {c : α}
    (h : Lacks same pattern text) (hc : begins same (c :: text) pattern = some false) :
    Lacks same pattern (c :: text) := by
  intro s hs hne
  rw [List.tails_cons, List.mem_cons] at hs
  rcases hs with rfl | hs
  · exact hc
  · exact h s hs hne

/-- Texts that are the same up to a function on their elements. -/
theorem begins_of_map_eq {β : Type} [BEq β] [LawfulBEq β] {f : α → β} {text pattern : List α}
    (h : text.map f = pattern.map f) (more : List α) :
    begins (fun a b => f a == f b) (text ++ more) pattern = some true := by
  induction pattern generalizing text with
  | nil => cases text <;> simp_all [begins]
  | cons c pattern ih =>
    cases text with
    | nil => simp at h
    | cons v text =>
      obtain ⟨hv, htext⟩ := List.cons_eq_cons.mp h
      simp only [List.cons_append, begins, beq_iff_eq, hv, if_true]
      exact ih htext

end Apue.Buffers
