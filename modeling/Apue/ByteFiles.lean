import Apue.Decimal
import Mathlib.Algebra.BigOperators.Group.List.Basic
import Mathlib.Tactic.Common

/-!
Files as lists of bytes. A read returns what lies between two offsets, less at
the end of the file; a write replaces bytes and extends the file, filling a gap
with zeros. The lemmas locate one block of a file that is given as a
concatenation.
-/
namespace Apue.ByteFiles

open Decimal

def readAt (file : List Byte) (off n : ℕ) : List Byte := (file.drop off).take n

def writeAt (file : List Byte) (off : ℕ) (bytes : List Byte) : List Byte :=
  file.take off ++ List.replicate (off - file.length) 0 ++ bytes ++
    file.drop (off + bytes.length)

/-- A write never makes a file shorter. -/
theorem le_length_writeAt (file : List Byte) (off : ℕ) (bytes : List Byte) :
    file.length ≤ (writeAt file off bytes).length := by
  simp only [writeAt, List.length_append, List.length_take, List.length_replicate,
    List.length_drop]
  omega

/-- A read inside one block sees only that block. -/
theorem readAt_inside (pre block post : List Byte) (i n : ℕ) (h : i + n ≤ block.length) :
    readAt (pre ++ block ++ post) (pre.length + i) n = (block.drop i).take n := by
  rw [readAt, List.append_assoc, List.drop_append, List.drop_eq_nil_of_le (by omega)]
  have hsub : pre.length + i - pre.length = i := by omega
  rw [hsub, List.nil_append, List.drop_append_of_le_length (by omega),
    List.take_append_of_le_length (by simp only [List.length_drop]; omega)]

theorem readAt_block (pre block post : List Byte) :
    readAt (pre ++ block ++ post) pre.length block.length = block := by
  have h := readAt_inside pre block post 0 block.length (by omega)
  simpa only [Nat.add_zero, List.drop_zero, List.take_length] using h

/-- Overwriting a block with one of the same length. -/
theorem writeAt_block (pre block post new : List Byte) (h : new.length = block.length) :
    writeAt (pre ++ block ++ post) pre.length new = pre ++ new ++ post := by
  have hgap : pre.length - (pre ++ block ++ post).length = 0 := by
    simp only [List.length_append]
    omega
  have hdrop : (pre ++ block ++ post).drop (pre.length + new.length) = post := by
    rw [h, ← List.length_append, List.drop_left]
  rw [writeAt, hgap, hdrop, List.append_assoc pre block post, List.take_left]
  simp only [List.replicate_zero, List.append_nil]

theorem writeAt_end (file new : List Byte) :
    writeAt file file.length new = file ++ new := by
  rw [writeAt, List.take_length, Nat.sub_self, List.drop_eq_nil_of_le (by omega)]
  simp only [List.replicate_zero, List.append_nil]

/-- The bytes stand in the file at the given offset. -/
def Contains (file : List Byte) (off : ℕ) (bytes : List Byte) : Prop :=
  readAt file off bytes.length = bytes

theorem Contains.readAt_eq {file bytes : List Byte} {off n : ℕ} (h : Contains file off bytes)
    (hn : bytes.length = n) : readAt file off n = bytes := by
  subst hn
  exact h

/-- A part of what stands at an offset stands at its own offset. -/
theorem Contains.inside {file a b c : List Byte} {off : ℕ} (h : Contains file off (a ++ b ++ c)) :
    Contains file (off + a.length) b := by
  unfold Contains readAt at *
  have hd := congrArg (List.drop a.length) h
  rw [List.drop_take, List.drop_drop, List.append_assoc, List.drop_left] at hd
  have ht := congrArg (List.take b.length) hd
  rw [List.take_left, List.take_take] at ht
  have hmin : min b.length ((a ++ (b ++ c)).length - a.length) = b.length := by
    simp only [List.length_append]
    omega
  rwa [hmin] at ht

theorem Contains.getElem? {file bytes : List Byte} {off : ℕ} (h : Contains file off bytes) {i : ℕ}
    (hi : i < bytes.length) : file[off + i]? = bytes[i]? := by
  have hget := congrArg (·[i]?) h
  simp only [readAt, List.getElem?_take, List.getElem?_drop, if_pos hi] at hget
  exact hget

/-!
Blocks that follow each other without a gap. `block a` is the text of the block
at address `a`; a file consists of something before, the blocks in order, and
something after.
-/

/-- The addresses start at `start` and each next one is where a block ends. -/
def Placed (size : ℕ → ℕ) : ℕ → List ℕ → Prop
  | _, [] => True
  | start, a :: as => a = start ∧ Placed size (start + size a) as

/-- Where the blocks that start at `start` end. -/
def endOf (size : ℕ → ℕ) (start : ℕ) (as : List ℕ) : ℕ := start + (as.map size).sum

theorem placed_append {size : ℕ → ℕ} {start : ℕ} {as bs : List ℕ} :
    Placed size start (as ++ bs) ↔ Placed size start as ∧ Placed size (endOf size start as) bs := by
  induction as generalizing start with
  | nil => simp [Placed, endOf]
  | cons a as ih =>
    simp only [List.cons_append, Placed, ih, endOf, List.map_cons, List.sum_cons, and_assoc,
      Nat.add_assoc]

theorem placed_congr {size size' : ℕ → ℕ} {start : ℕ} {as : List ℕ}
    (h : ∀ a ∈ as, size' a = size a) (hp : Placed size start as) : Placed size' start as := by
  induction as generalizing start with
  | nil => trivial
  | cons a as ih =>
    obtain ⟨rfl, hrest⟩ := hp
    refine ⟨rfl, ?_⟩
    rw [h a List.mem_cons_self]
    exact ih (fun b hb => h b (List.mem_cons_of_mem _ hb)) hrest

theorem endOf_congr {size size' : ℕ → ℕ} {start : ℕ} {as : List ℕ}
    (h : ∀ a ∈ as, size' a = size a) : endOf size' start as = endOf size start as := by
  rw [endOf, endOf, List.map_congr_left h]

theorem endOf_append {size : ℕ → ℕ} {start : ℕ} {as bs : List ℕ} :
    endOf size start (as ++ bs) = endOf size (endOf size start as) bs := by
  simp only [endOf, List.map_append, List.sum_append, Nat.add_assoc]

theorem endOf_flatMap (block : ℕ → List Byte) (start : ℕ) (as : List ℕ) :
    endOf (fun a => (block a).length) start as = start + (as.flatMap block).length := by
  rw [endOf, List.length_flatMap]

/-- A placed address lies between the two ends and its block before the end. -/
theorem placed_bounds {size : ℕ → ℕ} {start : ℕ} {as : List ℕ} (hp : Placed size start as)
    {a : ℕ} (ha : a ∈ as) : start ≤ a ∧ a + size a ≤ endOf size start as := by
  obtain ⟨pre, post, rfl⟩ := List.append_of_mem ha
  have h := (placed_append.mp hp).2
  have heq : a = endOf size start pre := h.1
  rw [endOf_append]
  subst heq
  simp only [endOf, List.map_cons, List.sum_cons]
  omega

/-- A block ends before the next one starts. -/
theorem placed_pairwise {size : ℕ → ℕ} {start : ℕ} {as : List ℕ}
    (hp : Placed size start as) : as.Pairwise (fun a b => a + size a ≤ b) := by
  induction as generalizing start with
  | nil => exact List.Pairwise.nil
  | cons a as ih =>
    obtain ⟨rfl, hrest⟩ := hp
    refine List.Pairwise.cons (fun b hb => ?_) (ih hrest)
    exact (placed_bounds hrest hb).1

/-- Every offset between the two ends lies in one of the blocks. -/
theorem placed_cover {size : ℕ → ℕ} {start : ℕ} {as : List ℕ} (hp : Placed size start as)
    {i : ℕ} (hge : start ≤ i) (hlt : i < endOf size start as) : ∃ a ∈ as, a ≤ i ∧ i < a + size a := by
  induction as generalizing start with
  | nil =>
    simp only [endOf, List.map_nil, List.sum_nil] at hlt
    omega
  | cons a as ih =>
    obtain ⟨rfl, hrest⟩ := hp
    by_cases hi : i < a + size a
    · exact ⟨a, List.mem_cons_self, hge, hi⟩
    · have hend : endOf size a (a :: as) = endOf size (a + size a) as := by
        simp only [endOf, List.map_cons, List.sum_cons, Nat.add_assoc]
      obtain ⟨b, hb, hle, hlt'⟩ := ih hrest (not_lt.mp hi) (hend ▸ hlt)
      exact ⟨b, List.mem_cons_of_mem _ hb, hle, hlt'⟩

/-- Two blocks do not overlap. -/
theorem placed_disjoint {size : ℕ → ℕ} {start : ℕ} {as : List ℕ} (hp : Placed size start as)
    {a b : ℕ} (ha : a ∈ as) (hb : b ∈ as) (hne : a ≠ b) : a + size a ≤ b ∨ b + size b ≤ a := by
  have hpair := placed_pairwise hp
  obtain ⟨pre, post, rfl⟩ := List.append_of_mem ha
  obtain ⟨-, hpost, hpre⟩ := List.pairwise_append.mp hpair
  rcases List.mem_append.mp hb with hb | hb
  · exact Or.inr (hpre b hb a List.mem_cons_self)
  · have hb' := (List.mem_cons.mp hb).resolve_left fun he => hne he.symm
    exact Or.inl ((List.pairwise_cons.mp hpost).1 b hb')

theorem placed_nodup {size : ℕ → ℕ} (hpos : ∀ a, 0 < size a) {start : ℕ} {as : List ℕ}
    (hp : Placed size start as) : as.Nodup :=
  (placed_pairwise hp).imp fun {a b} hab => by
    have := hpos a
    omega

/-- The block at a placed address, with what is before and after it. -/
theorem placed_split {block : ℕ → List Byte} {before : List Byte} {as : List ℕ}
    (hp : Placed (fun a => (block a).length) before.length as) {a : ℕ} (ha : a ∈ as) :
    ∃ pre post, as = pre ++ a :: post ∧ (before ++ pre.flatMap block).length = a := by
  obtain ⟨pre, post, rfl⟩ := List.append_of_mem ha
  refine ⟨pre, post, rfl, ?_⟩
  have h := (placed_append.mp hp).2.1
  rw [endOf_flatMap] at h
  rw [List.length_append]
  exact h.symm

theorem contains_block {block : ℕ → List Byte} (before after : List Byte) {as : List ℕ}
    (hp : Placed (fun a => (block a).length) before.length as) {a : ℕ} (ha : a ∈ as) :
    Contains (before ++ as.flatMap block ++ after) a (block a) := by
  obtain ⟨pre, post, rfl, hlen⟩ := placed_split hp ha
  have hfile : before ++ (pre ++ a :: post).flatMap block ++ after =
      (before ++ pre.flatMap block) ++ block a ++ (post.flatMap block ++ after) := by
    simp only [List.flatMap_append, List.flatMap_cons, List.append_assoc]
  rw [hfile, Contains, ← hlen]
  exact readAt_block _ _ _

/-- Overwriting the front of one block leaves all other blocks alone. -/
theorem writeAt_placed {block : ℕ → List Byte} (block' : ℕ → List Byte)
    (before after new : List Byte) {as : List ℕ} (hnodup : as.Nodup)
    (hp : Placed (fun a => (block a).length) before.length as) {a : ℕ} (ha : a ∈ as)
    {old : List Byte} (rest : List Byte) (hold : block a = old ++ rest) (hnew : block' a = new ++ rest)
    (hlen : new.length = old.length) (hother : ∀ b ∈ as, b ≠ a → block' b = block b) :
    writeAt (before ++ as.flatMap block ++ after) a new =
      before ++ as.flatMap block' ++ after := by
  obtain ⟨pre, post, rfl, hstart⟩ := placed_split hp ha
  have hne : ∀ b ∈ pre ++ post, b ≠ a := by
    have hsplit := List.nodup_middle.mp hnodup
    intro b hb he
    exact (List.nodup_cons.mp hsplit).1 (he ▸ hb)
  have hpre : pre.flatMap block' = pre.flatMap block := by
    refine List.flatMap_congr fun b hb => ?_
    exact hother b (List.mem_append_left _ hb) (hne b (List.mem_append_left _ hb))
  have hpost : post.flatMap block' = post.flatMap block := by
    refine List.flatMap_congr fun b hb => ?_
    exact hother b (List.mem_append_right _ (List.mem_cons_of_mem _ hb))
      (hne b (List.mem_append_right _ hb))
  have hfile : before ++ (pre ++ a :: post).flatMap block ++ after =
      (before ++ pre.flatMap block) ++ old ++ (rest ++ (post.flatMap block ++ after)) := by
    simp only [List.flatMap_append, List.flatMap_cons, List.append_assoc, hold]
  rw [hfile]
  conv_lhs => rw [← hstart]
  rw [writeAt_block _ _ _ _ hlen]
  simp only [List.flatMap_append, List.flatMap_cons, List.append_assoc, hnew, hpre, hpost]

end Apue.ByteFiles
