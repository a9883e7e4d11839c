import Apue.DbModel

/-!
The index records as texts. A record is a chain pointer in seven columns, the
length of the rest in four, and the rest: key, data offset and data length
between separators. What _db_writeidx prints, _db_readidx parses back, provided
the key is a string without a separator.
-/
namespace Apue.Db

open Programs Decimal ByteFiles

/-- The part of an index record after the chain pointer. -/
structure Body where
  key : List Byte
  datoff : ℕ
  datlen : ℕ

namespace Body

def text (b : Body) : List Byte := idxText b.key b.datoff b.datlen

/-- A key that cannot be confused with the rest of the record. -/
def Plain (key : List Byte) : Prop := ∀ c ∈ key, c ≠ 0 ∧ c ≠ SEP

instance (key : List Byte) : Decidable (Plain key) :=
  inferInstanceAs (Decidable (∀ c ∈ key, c ≠ 0 ∧ c ≠ SEP))

/-- The limits that the library checks, and a key it can read back. -/
structure Ok (b : Body) : Prop where
  plain : Plain b.key
  min_le : IDXLEN_MIN ≤ b.text.length
  le_max : b.text.length ≤ IDXLEN_MAX
  datlen_pos : 0 < b.datlen
  datlen_le : b.datlen ≤ DATLEN_MAX

/-- The same record under another key. -/
def rekey (b : Body) (key : List Byte) : Body := { b with key := key }

theorem length_text (b : Body) :
    b.text.length = b.key.length + (decimal b.datoff).length + (decimal b.datlen).length + 3 := by
  simp only [text, idxText, decimalInt_natCast, List.length_append, List.length_singleton]
  omega

theorem length_text_rekey (b : Body) {key : List Byte} (h : key.length = b.key.length) :
    (b.rekey key).text.length = b.text.length := by
  rw [length_text, length_text]
  simp only [rekey, h]

theorem Ok.rekey {b : Body} (hb : b.Ok) {key : List Byte} (hkey : Plain key)
    (h : key.length = b.key.length) : (b.rekey key).Ok where
  plain := hkey
  min_le := by rw [length_text_rekey b h]; exact hb.min_le
  le_max := by rw [length_text_rekey b h]; exact hb.le_max
  datlen_pos := hb.datlen_pos
  datlen_le := hb.datlen_le

end Body

/-- A pointer as it stands in its cell. -/
def ptrText (v : ℕ) : List Byte := padLeft PTR_SZ (decimal v)

/-- The two fixed columns of an index record. -/
def recHead (ptr : ℕ) (b : Body) : List Byte :=
  ptrText ptr ++ padLeft IDXLEN_SZ (decimal b.text.length)

def recText (ptr : ℕ) (b : Body) : List Byte := recHead ptr b ++ b.text

theorem length_ptrText {ptr : ℕ} (h : ptr ≤ PTR_MAX) :
    (ptrText ptr).length = PTR_SZ := by
  apply length_padLeft
  apply length_decimal_le 6
  simp only [PTR_MAX] at h
  omega

theorem length_lenText {b : Body} (hb : b.text.length ≤ IDXLEN_MAX) :
    (padLeft IDXLEN_SZ (decimal b.text.length)).length = IDXLEN_SZ := by
  apply length_padLeft
  apply length_decimal_le 3
  simp only [IDXLEN_MAX] at hb
  omega

theorem length_recHead {ptr : ℕ} {b : Body} (h : ptr ≤ PTR_MAX)
    (hb : b.text.length ≤ IDXLEN_MAX) :
    (recHead ptr b).length = PTR_SZ + IDXLEN_SZ := by
  rw [recHead, List.length_append, length_ptrText h, length_lenText hb]

theorem length_recText {ptr : ℕ} {b : Body} (h : ptr ≤ PTR_MAX)
    (hb : b.text.length ≤ IDXLEN_MAX) :
    (recText ptr b).length = PTR_SZ + IDXLEN_SZ + b.text.length := by
  rw [recText, List.length_append, length_recHead h hb]

theorem atol_recHead_ptr {ptr : ℕ} {b : Body} (h : ptr ≤ PTR_MAX) :
    atol ((recHead ptr b).take PTR_SZ) = ptr := by
  rw [recHead, List.take_left' (length_ptrText h), ptrText, atol_padLeft]

theorem atol_recHead_len {ptr : ℕ} {b : Body} (h : ptr ≤ PTR_MAX) :
    atol ((recHead ptr b).drop PTR_SZ) = b.text.length := by
  rw [recHead, List.drop_left' (length_ptrText h), atol_padLeft]

theorem strchr_append {a b : List Byte} {c : Byte} (h : c ∉ a) :
    strchr (a ++ c :: b) c = some (a, b) := by
  have ha : ∀ x ∈ a, (decide (x ≠ c)) = true := by
    intro x hx
    simp only [decide_eq_true_eq]
    rintro rfl
    exact h hx
  unfold strchr
  rw [List.dropWhile_append_of_pos ha, List.takeWhile_append_of_pos ha,
    List.dropWhile_cons_of_neg (by simp), List.takeWhile_cons_of_neg (by simp), List.append_nil]

theorem strchr_eq_none {a : List Byte} {c : Byte} (h : c ∉ a) : strchr a c = none := by
  have ha : ∀ x ∈ a, (decide (x ≠ c)) = true := by
    intro x hx
    simp only [decide_eq_true_eq]
    rintro rfl
    exact h hx
  unfold strchr
  rw [List.dropWhile_eq_nil_iff.mpr ha]

theorem cstr_eq_self {text : List Byte} (h : ∀ c ∈ text, c ≠ 0) : cstr text = text := by
  unfold cstr
  rw [List.takeWhile_eq_self_iff]
  intro c hc
  simpa using h c hc

theorem sizeOfLong_natCast (n : ℕ) : sizeOfLong (n : ℤ) = n := by
  rw [sizeOfLong, if_pos (by omega), Int.toNat_natCast]

/-- Parsing the text of a record gives back its key, data offset and length. -/
theorem parseIdx_text {b : Body} (hb : b.Ok) (db : DB) :
    parseIdx db b.text.dropLast =
      .ret { db with idxbuf := b.key, datoff := b.datoff, datlen := b.datlen } := by
  have hsep : isDigit SEP = false := by decide
  have hnul : isDigit 0 = false := by decide
  have htext : b.text.dropLast =
      b.key ++ SEP :: (decimal b.datoff ++ SEP :: decimal b.datlen) := by
    rw [Body.text, idxText, List.dropLast_concat, decimalInt_natCast]
    simp only [List.append_assoc, List.cons_append, List.nil_append]
  have hstr : cstr b.text.dropLast = b.text.dropLast := by
    refine cstr_eq_self fun c hc => ?_
    rw [htext] at hc
    rintro rfl
    simp only [List.mem_append, List.mem_cons] at hc
    rcases hc with hc | hc | hc | hc | hc
    · exact (hb.plain _ hc).1 rfl
    · exact absurd hc (by decide)
    · exact not_mem_decimal hnul _ hc
    · exact absurd hc (by decide)
    · exact not_mem_decimal hnul _ hc
  have hlen : ¬ (b.datlen ≤ 0 ∨ b.datlen > DATLEN_MAX) := by
    have h₁ := hb.datlen_pos
    have h₂ := hb.datlen_le
    omega
  unfold parseIdx
  rw [hstr, htext, strchr_append (fun h => (hb.plain _ h).2 rfl)]
  simp only [strchr_append (not_mem_decimal hsep b.datoff), strchr_eq_none (not_mem_decimal hsep _),
    atol_decimal, sizeOfLong_natCast, errDumpIf, Option.isSome_none, Bool.false_eq_true,
    if_false, Prog.ret_bind, if_neg hlen, Prog.pure_eq]
  rw [if_neg (by omega)]
  rfl

/-- Where the records of an index file begin, from the offset `o` on: each is as
long as its second column says. -/
def recordStarts (idx : List Byte) : ℕ → ℕ → List ℕ
  | 0, _ => []
  | n + 1, o =>
    if idx.length ≤ o then []
    else
      let idxlen := atol ((readAt idx o (PTR_SZ + IDXLEN_SZ)).drop PTR_SZ)
      o :: recordStarts idx n (o + (PTR_SZ + IDXLEN_SZ + idxlen.toNat))

/-- No record of the index file begins beyond the largest pointer. -/
def Files.Near (files : Files) : Prop :=
  ∀ o ∈ recordStarts files.idx files.idx.length 967, o ≤ PTR_MAX

instance (files : Files) : Decidable files.Near :=
  inferInstanceAs (Decidable (∀ o ∈ recordStarts _ _ _, o ≤ PTR_MAX))

theorem lt_of_mem_recordStarts {idx : List Byte} {n x o : ℕ} (ho : o ∈ recordStarts idx n x) :
    o < idx.length := by
  induction n generalizing x with
  | zero => cases ho
  | succ n ih =>
    rw [recordStarts] at ho
    split at ho
    · cases ho
    · rcases List.mem_cons.mp ho with rfl | ho
      · omega
      · exact ih ho

/-- An index file that ends in time has no record too far. -/
theorem Files.near_of_length {files : Files} (h : files.idx.length ≤ PTR_MAX) : files.Near :=
  fun _ ho => (lt_of_mem_recordStarts ho).le.trans h

end Apue.Db
