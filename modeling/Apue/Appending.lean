import Apue.Buffers

/-!
Texts that are put together in a buffer through a pointer. The pointer is an index, and
the text before it is the one that was stored so far. Storing beyond the end of the buffer
is not defined. A part may take some room behind its own text, which the next part
overwrites.
-/
namespace Apue.Buffers

variable {α : Type}

/-- A buffer and a pointer into it. -/
abbrev Cursor (α : Type) := Buffer α × ℕ

namespace Cursor

/-- `*cp++ = v` -/
def push (v : α) (p : Cursor α) : Option (Cursor α) := do
  let b ← p.1.set p.2 v
  some (b, p.2 + 1)

def pushAll : List α → Cursor α → Option (Cursor α)
  | [], p => some p
  | v :: text, p => do
    let p ← p.push v
    pushAll text p

/-- Store a text with its terminator, and move behind the text. -/
def copy (zero : α) (text : List α) (p : Cursor α) : Option (Cursor α) :=
  if p.2 + text.length + 1 ≤ p.1.size then
    some (p.1.write p.2 (text ++ [zero]), p.2 + text.length)
  else none

/-- The text before the pointer. -/
def text (p : Cursor α) : List α := (List.range p.2).map p.1.cell

end Cursor

/-- The text that is in a buffer of some size so far. -/
structure Filled (size : ℕ) (text : List α) (p : Cursor α) : Prop where
  size_eq : p.1.size = size
  holds : p.1.Holds 0 text
  pointer : p.2 = text.length

/-- The part appends its text if there is room for it and for `slack` cells more, and
fails otherwise. -/
def Appends (f : Cursor α → Option (Cursor α)) (part : List α) (slack : ℕ) : Prop :=
  ∀ size text p, Filled size text p →
    if text.length + part.length + slack ≤ size then
      ∃ p', f p = some p' ∧ Filled size (text ++ part) p'
    else f p = none

theorem Filled.start (b : Buffer α) : Filled b.size [] (b, 0) := ⟨rfl, trivial, rfl⟩

theorem Filled.length_le {size : ℕ} {text : List α} {p : Cursor α} (h : Filled size text p) :
    text.length ≤ size := by
  cases text with
  | nil => exact Nat.zero_le size
  | cons v text =>
    have hle := h.holds.le_size (List.cons_ne_nil v text)
    rwa [Nat.zero_add, h.size_eq] at hle

theorem Filled.text_eq {size : ℕ} {text : List α} {p : Cursor α} (h : Filled size text p) :
    p.text = text := by
  have hcells : ∀ (text : List α) (i : ℕ), p.1.Holds i text →
      (List.range' i text.length).map p.1.cell = text := by
    intro text
    induction text with
    | nil => exact fun _ _ => rfl
    | cons v text ih =>
      intro i h
      simp only [List.length_cons, List.range'_succ, List.map_cons,
        (Buffer.get_eq_some.mp h.1).2, ih (i + 1) h.2]
  rw [Cursor.text, h.pointer, List.range_eq_range']
  exact hcells text 0 h.holds

/-- One part after the other. The second one overwrites what the first one left behind
its text. -/
theorem Appends.bind {f g : Cursor α → Option (Cursor α)} {part part' : List α} {slack slack' : ℕ}
    (hf : Appends f part slack) (hg : Appends g part' slack')
    (hslack : slack ≤ part'.length + slack') :
    Appends (fun p => f p >>= g) (part ++ part') slack' := by
  intro size text p hp
  have hfirst := hf size text p hp
  simp only [Option.bind_eq_bind]
  by_cases hroom : text.length + part.length + slack ≤ size
  · rw [if_pos hroom] at hfirst
    obtain ⟨p', hp', hfilled⟩ := hfirst
    have hsecond := hg size (text ++ part) p' hfilled
    rw [List.length_append, List.append_assoc] at hsecond
    rw [hp', Option.bind_some, List.length_append]
    rwa [Nat.add_assoc text.length part.length] at hsecond
  · rw [if_neg hroom] at hfirst
    rw [hfirst, Option.bind_none, if_neg (by rw [List.length_append]; omega)]

theorem appends_nil : Appends (fun p : Cursor α => some p) [] 0 := by
  intro size text p hp
  rw [if_pos (show text.length + [].length + 0 ≤ size from hp.length_le), List.append_nil]
  exact ⟨p, rfl, hp⟩

theorem appends_push (v : α) : Appends (Cursor.push v) [v] 0 := by
  intro size text p hp
  rw [List.length_singleton, Nat.add_zero]
  by_cases hroom : text.length + 1 ≤ size
  · obtain ⟨b, hset, hsize, hget, hsame⟩ := Buffer.set_eq_some (b := p.1) (i := p.2) (v := v)
      (by rw [hp.pointer, hp.size_eq]; exact hroom)
    rw [if_pos hroom]
    refine ⟨(b, p.2 + 1), by rw [Cursor.push, hset]; rfl, hsize.trans hp.size_eq, ?_, ?_⟩
    · refine Buffer.holds_append.mpr ⟨hp.holds.congr fun j _ hj => hsame j ?_, ?_, trivial⟩
      · rw [hp.pointer]
        omega
      · rw [Nat.zero_add, ← hp.pointer]
        exact hget
    · rw [List.length_append, hp.pointer, List.length_singleton]
  · rw [if_neg hroom, Cursor.push, Buffer.set, if_neg (by rw [hp.pointer, hp.size_eq]; exact hroom)]
    rfl

theorem appends_pushAll (text : List α) : Appends (Cursor.pushAll text) text 0 := by
  induction text with
  | nil => exact appends_nil
  | cons v text ih => exact (appends_push v).bind ih (Nat.zero_le _)

theorem appends_copy (zero : α) (part : List α) : Appends (Cursor.copy zero part) part 1 := by
  intro size text p hp
  rw [Cursor.copy, hp.size_eq, hp.pointer]
  by_cases hroom : text.length + part.length + 1 ≤ size
  · rw [if_pos hroom, if_pos hroom]
    refine ⟨_, rfl, hp.size_eq, Buffer.holds_append.mpr ⟨?_, ?_⟩, ?_⟩
    · exact hp.holds.write_before _ (by rw [Nat.zero_add])
    · rw [Nat.zero_add]
      refine Buffer.Holds.of_begins (Buffer.write_holds ?_) (List.prefix_append part [zero])
      rw [List.length_append, List.length_singleton, hp.size_eq]
      exact hroom
    · rw [List.length_append]
  · rw [if_neg hroom, if_neg hroom]

/-- The whole text, from an empty buffer. -/
theorem Appends.run {f : Cursor α → Option (Cursor α)} {part : List α} {slack : ℕ}
    (h : Appends f part slack) (b : Buffer α) :
    if part.length + slack ≤ b.size then ∃ p, f (b, 0) = some p ∧ Filled b.size part p
    else f (b, 0) = none := by
  have hstart := h b.size [] (b, 0) (.start b)
  rwa [List.length_nil, Nat.zero_add, List.nil_append] at hstart

end Apue.Buffers
