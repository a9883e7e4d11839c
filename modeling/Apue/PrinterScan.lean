import Apue.PrinterStatus

/-!
What the parts of printer_status do on a buffer that holds the text they are looking
for: the status line, the field with the length of the body, the end of the header and
the IPP header. Each of them looks at this text and at nothing behind it.
-/
namespace Apue.Printer

open Programs Decimal Buffers Print

/-- The end of a line. -/
def CRLF : List Byte := [13, 10]

/-- `HTTP/x.y`, a code of three digits and a reason. -/
structure StatusLine where
  major : Byte
  minor : Byte
  code : List Byte
  reason : List Byte
  code_length : code.length = 3
  code_digits : ∀ b ∈ code, isDigit b = true
  reason_line : ∀ b ∈ reason, b ≠ 13 ∧ b ≠ 10

namespace StatusLine

def version (l : StatusLine) : List Byte := [72, 84, 84, 80, 47, l.major, 46, l.minor]

def text (l : StatusLine) : List Byte := l.version ++ ([32] ++ (l.code ++ ([32] ++ l.reason)))

def value (l : StatusLine) : ℤ := leadingValue l.code

end StatusLine

/-- A line of the header other than the one that printer_status looks for. -/
structure Field where
  text : List Byte
  text_ne : text ≠ []
  text_line : ∀ b ∈ text, b ≠ 13 ∧ b ≠ 10

def lines (fields : List Field) : List Byte := (fields.map fun f => f.text ++ CRLF).flatten

/-- The name Content-Length in any case, blanks, the length and blanks. -/
structure LengthField where
  name : List Byte
  pad : List Byte
  digits : List Byte
  trail : List Byte
  name_eq : name.map tolower = CONTENT_LENGTH.map tolower
  pad_blank : ∀ b ∈ pad, b = 32 ∨ b = 9
  digits_ne : digits ≠ []
  digits_digits : ∀ b ∈ digits, isDigit b = true
  trail_blank : ∀ b ∈ trail, b = 32 ∨ b = 9

def LengthField.value (f : LengthField) : ℕ := leadingValue f.digits

theorem int32_of_lt {n : ℕ} (h : n < 2 ^ 31) : int32 n = n :=
  Int.bmod_eq_of_le (by omega) (by omega)

theorem ne_zero_of_isDigit {b : Byte} (h : isDigit b = true) : (b != 0) = true := by
  simp only [bne_iff_ne, ne_eq]
  rintro rfl
  revert h
  decide

/-- atoi reads digits that a null ends. -/
theorem atoi_digits {bp : Buffer Byte} {p : ℕ} {digits : List Byte}
    (h : bp.Holds p (digits ++ [0])) (hdigits : ∀ b ∈ digits, isDigit b = true) :
    atoi bp p = some (int32 (leadingValue digits)) := by
  unfold atoi
  rw [h.takeWhile (fun b hb => ne_zero_of_isDigit (hdigits b hb)) (by decide), Option.map_some]
  exact congrArg (fun v => some (int32 v)) (atol_blanks_digits 0 hdigits)

namespace StatusLine

theorem length_text (l : StatusLine) : l.text.length = 13 + l.reason.length := by
  simp only [text, version, List.length_append, List.length_cons, List.length_nil, l.code_length]
  omega

theorem code_eq_cons (l : StatusLine) : ∃ d ds, l.code = d :: ds ∧ isDigit d = true := by
  cases hcode : l.code with
  | nil =>
    have hlen := l.code_length
    rw [hcode] at hlen
    cases hlen
  | cons d ds => exact ⟨d, ds, rfl, l.code_digits d (hcode ▸ List.mem_cons_self)⟩

theorem value_lt (l : StatusLine) : leadingValue l.code < 2 ^ 31 := by
  have hlt := leadingValue_lt l.code_digits
  rw [l.code_length] at hlt
  omega

end StatusLine

/-- The status line is taken apart, and the byte that ends it is overwritten. -/
theorem statusLine_spec {bp : Buffer Byte} (l : StatusLine) (h : bp.Holds 0 (l.text ++ [13])) :
    ∃ bp', statusLine bp = some (some (bp', l.text.length, l.value)) ∧ bp'.size = bp.size ∧
      bp'.get l.text.length = some 0 ∧ ∀ j, l.text.length < j → bp'.get j = bp.get j := by
  have hlen := l.length_text
  have hsize := h.le_size (by simp)
  simp only [List.length_append, List.length_singleton] at hsize
  rw [StatusLine.text] at h
  simp only [List.append_assoc, Buffer.holds_append] at h
  obtain ⟨-, hblank, hcode, hspace, hreason, hend⟩ := h
  have hversion : l.version.length = 8 := rfl
  simp only [hversion, l.code_length, List.length_singleton, Nat.zero_add, Nat.reduceAdd]
    at hblank hcode hspace hreason hend
  obtain ⟨d, ds, hd, hdigit⟩ := l.code_eq_cons
  have hstat : bp.scan isSpace 8 = some 9 := by
    have hfirst : bp.Holds 8 ([32] ++ [d]) := by
      rw [hd] at hcode
      exact Buffer.holds_append.mpr ⟨hblank, hcode.1, trivial⟩
    exact hfirst.scan (by decide) (not_sign_of_isDigit hdigit).2.2
  have hdigits : bp.scan isDigit 9 = some 12 := by
    have hall : bp.Holds 9 (l.code ++ [32]) :=
      Buffer.holds_append.mpr ⟨hcode, by rw [l.code_length]; exact hspace⟩
    have hscan := hall.scan l.code_digits (by decide)
    rwa [l.code_length] at hscan
  obtain ⟨b₁, hset₁, hsize₁, hnull, hsame₁⟩ :=
    Buffer.set_eq_some (v := 0) (show 12 < bp.size by omega)
  have hline : b₁.scan (fun b => b != 13 && b != 10) 13 = some l.text.length := by
    have hall : b₁.Holds 13 (l.reason ++ [13]) :=
      (Buffer.holds_append.mpr ⟨hreason, hend⟩).congr fun j hj _ => hsame₁ j (by omega)
    rw [hall.scan (fun b hb => by simp [l.reason_line b hb]) (by decide), hlen]
  obtain ⟨b₂, hset₂, hsize₂, hend₂, hsame₂⟩ :=
    Buffer.set_eq_some (v := 0) (show l.text.length < b₁.size by omega)
  have hvalue : atoi b₂ 9 = some l.value := by
    have hnum : b₂.Holds 9 (l.code ++ [0]) := by
      refine Buffer.holds_append.mpr ⟨hcode.congr fun j hj hj' => ?_, ?_, trivial⟩
      · rw [l.code_length] at hj'
        rw [hsame₂ j (by omega), hsame₁ j (by omega)]
      · rw [l.code_length, hsame₂ 12 (by omega)]
        exact hnull
    rw [atoi_digits hnum l.code_digits, int32_of_lt l.value_lt]
    rfl
  refine ⟨b₂, ?_, hsize₂.trans hsize₁, hend₂, fun j hj => ?_⟩
  · simp [statusLine, hstat, hdigits, hset₁, hline, hset₂, hvalue]
  · rw [hsame₂ j (by omega), hsame₁ j (by omega)]

theorem letter_of_tolower {c : Byte} (h : tolower c = 99) : c = 67 ∨ c = 99 := by
  unfold tolower at h
  split at h
  · refine Or.inl ?_
    have hsub := congrArg (fun b => b - 32) h
    simpa using hsub
  · exact Or.inr h

namespace LengthField

def text (f : LengthField) : List Byte := f.name ++ (f.pad ++ f.digits)

theorem length_name (f : LengthField) : f.name.length = 15 := by
  have hlen := congrArg List.length f.name_eq
  rwa [List.length_map, List.length_map] at hlen

theorem name_begins (f : LengthField) (more : List Byte) :
    begins sameLetter (f.name ++ more) CONTENT_LENGTH = some true :=
  begins_of_map_eq f.name_eq more

theorem name_eq_cons (f : LengthField) : ∃ c rest, f.name = c :: rest ∧ (c = 67 ∨ c = 99) := by
  cases hname : f.name with
  | nil =>
    have hlen := f.length_name
    rw [hname] at hlen
    cases hlen
  | cons c rest =>
    have hlower : tolower c = 99 := by
      have heq := f.name_eq
      rw [hname] at heq
      exact (List.cons_eq_cons.mp heq).1
    exact ⟨c, rest, rfl, letter_of_tolower hlower⟩

theorem isSpace_pad (f : LengthField) : ∀ b ∈ f.pad, isSpace b = true := by
  intro b hb
  rcases f.pad_blank b hb with rfl | rfl <;> rfl

end LengthField

/-- The value of the field is taken, and the byte behind it is overwritten. -/
theorem lengthField_spec {bp : Buffer Byte} {i : ℕ} (f : LengthField) {t : Byte}
    (ht : isDigit t = false) (h : bp.Holds i (f.text ++ [t])) :
    ∃ bp', lengthField bp i = some (bp', i + f.text.length + 1, int32 f.value) ∧
      bp'.size = bp.size ∧ ∀ j, i + f.text.length < j → bp'.get j = bp.get j := by
  have hsize := h.le_size (by simp)
  have hlen : f.text.length = 15 + f.pad.length + f.digits.length := by
    simp only [LengthField.text, List.length_append, f.length_name]
    omega
  simp only [List.length_append, List.length_singleton] at hsize
  rw [LengthField.text] at h
  simp only [List.append_assoc, Buffer.holds_append, f.length_name] at h
  obtain ⟨-, hpad, hdigits, hend⟩ := h
  have hstart : bp.scan isSpace (i + 15) = some (i + 15 + f.pad.length) := by
    obtain ⟨d, ds, hd⟩ := List.exists_cons_of_ne_nil f.digits_ne
    have hfirst : bp.Holds (i + 15) (f.pad ++ [d]) := by
      rw [hd] at hdigits
      exact Buffer.holds_append.mpr ⟨hpad, hdigits.1, trivial⟩
    refine hfirst.scan f.isSpace_pad (not_sign_of_isDigit ?_).2.2
    exact f.digits_digits d (hd ▸ List.mem_cons_self)
  have hstop : bp.scan isDigit (i + 15 + f.pad.length) = some (i + f.text.length) := by
    have hall : bp.Holds (i + 15 + f.pad.length) (f.digits ++ [t]) :=
      Buffer.holds_append.mpr ⟨hdigits, hend⟩
    rw [hall.scan f.digits_digits ht, hlen]
    simp only [Option.some.injEq]
    omega
  obtain ⟨bp', hset, hsize', hnull, hsame⟩ :=
    Buffer.set_eq_some (v := 0) (show i + f.text.length < bp.size by omega)
  have hvalue : atoi bp' (i + 15 + f.pad.length) = some (int32 f.value) := by
    refine atoi_digits (Buffer.holds_append.mpr ⟨hdigits.congr fun j hj hj' => ?_, ?_, trivial⟩)
      f.digits_digits
    · exact hsame j (by omega)
    · rw [show i + 15 + f.pad.length + f.digits.length = i + f.text.length by omega]
      exact hnull
  refine ⟨bp', ?_, hsize', fun j hj => hsame j (by omega)⟩
  simp [lengthField, hstart, hstop, hset, hvalue]

/-- A letter at which the search stops. -/
def isC (c : Byte) : Bool := c == 67 || c == 99

theorem findLength_at {bp : Buffer Byte} {i datsz : ℕ} {c : Byte} (fuel : ℕ) (hin : i < datsz)
    (h : bp.get i = some c) (hc : isC c = true) :
    findLength (fuel + 1) ⟨bp, i, datsz⟩ = takeLength (findLength fuel) ⟨bp, i, datsz⟩ := by
  have hseek : seekC bp (datsz - i) i = some i := by
    have hstop : ¬ (c ≠ 67 ∧ c ≠ 99) := by
      simpa [isC, Decidable.or_iff_not_imp_left] using hc
    rw [show datsz - i = datsz - (i + 1) + 1 by omega]
    simp [seekC, h, hstop]
  rw [findLength, hseek]
  simp only [inBounds, Prog.ret_bind, refill, if_neg (Nat.not_le.mpr hin)]

theorem takeLength_skip {bp : Buffer Byte} {i datsz : ℕ} {c : Byte} {text : List Byte}
    (search : Position → Prog sig (Option (Position × ℤ)))
    (hlacks : Lacks sameLetter CONTENT_LENGTH (c :: text)) (h : bp.Holds i (c :: text)) :
    takeLength search ⟨bp, i, datsz⟩ = search ⟨bp, i + 1, datsz⟩ := by
  simp only [takeLength, h.agrees hlacks.head, inBounds, Prog.ret_bind]

/-- A text without the name is passed over; the search stops once at each C in it. -/
theorem findLength_skip {bp : Buffer Byte} {text : List Byte} {i datsz : ℕ} (fuel : ℕ)
    (hlacks : Lacks sameLetter CONTENT_LENGTH text) (h : bp.Holds i text)
    (hdata : i + text.length ≤ datsz) :
    findLength (text.countP isC + fuel + 1) ⟨bp, i, datsz⟩ =
      findLength (fuel + 1) ⟨bp, i + text.length, datsz⟩ := by
  induction text generalizing i with
  | nil => simp
  | cons c text ih =>
    simp only [List.length_cons] at hdata ⊢
    rw [show i + (text.length + 1) = i + 1 + text.length by omega, ← ih hlacks.tail h.2 (by omega)]
    by_cases hc : isC c = true
    · have hcount : (c :: text).countP isC + fuel + 1 = text.countP isC + fuel + 1 + 1 := by
        rw [List.countP_cons, if_pos hc]
        omega
      rw [hcount, findLength_at _ (by omega) h.1 hc, takeLength_skip _ hlacks h]
    · have hcount : (c :: text).countP isC = text.countP isC := by
        rw [List.countP_cons, if_neg hc, Nat.add_zero]
      have hseek : seekC bp (datsz - i) i = seekC bp (datsz - (i + 1)) (i + 1) := by
        have hgo : c ≠ 67 ∧ c ≠ 99 := by simpa [isC] using hc
        rw [show datsz - i = datsz - (i + 1) + 1 by omega]
        simp [seekC, h.1, hgo]
      rw [hcount, findLength, findLength, hseek]

/-- The end of a search: the length, and the buffer behind the field is as it was. -/
def Found (bp : Buffer Byte) (e datsz : ℕ) (f : LengthField)
    (p : Prog sig (Option (Position × ℤ))) : Prop :=
  ∃ bp', p = .ret (some (⟨bp', e, datsz⟩, int32 f.value)) ∧ bp'.size = bp.size ∧
    ∀ j, e ≤ j → bp'.get j = bp.get j

theorem takeLength_found {bp : Buffer Byte} {i datsz : ℕ} {f : LengthField} {t : Byte}
    (search : Position → Prog sig (Option (Position × ℤ))) (ht : isDigit t = false)
    (h : bp.Holds i (f.text ++ [t])) :
    Found bp (i + f.text.length + 1) datsz f (takeLength search ⟨bp, i, datsz⟩) := by
  obtain ⟨bp', hfield, hsize, hsame⟩ := lengthField_spec f ht h
  have hname : bp.agrees sameLetter i CONTENT_LENGTH = some true := by
    rw [LengthField.text, List.append_assoc] at h
    exact h.agrees (f.name_begins _)
  refine ⟨bp', ?_, hsize, fun j hj => hsame j (by omega)⟩
  simp only [takeLength, hname, hfield, inBounds, Prog.ret_bind, Prog.pure_eq]

/-- A search in data that has the field with its value. -/
theorem findLength_found {bp : Buffer Byte} {text : List Byte} {i datsz : ℕ} {f : LengthField}
    {t : Byte} {fuel : ℕ} (hlacks : Lacks sameLetter CONTENT_LENGTH text) (ht : isDigit t = false)
    (h : bp.Holds i (text ++ (f.text ++ [t]))) (hdata : i + text.length < datsz)
    (hfuel : text.length < fuel) :
    Found bp (i + text.length + f.text.length + 1) datsz f (findLength fuel ⟨bp, i, datsz⟩) := by
  obtain ⟨htext, hfield⟩ := Buffer.holds_append.mp h
  have hle := List.countP_le_length (p := isC) (l := text)
  obtain ⟨left, rfl⟩ := Nat.exists_eq_add_of_lt (Nat.lt_of_le_of_lt hle hfuel)
  obtain ⟨c, rest, hname, hc⟩ := f.name_eq_cons
  have hget : bp.get (i + text.length) = some c := by
    rw [LengthField.text, hname] at hfield
    exact hfield.1
  rw [findLength_skip left hlacks htext hdata.le,
    findLength_at left hdata hget (by rcases hc with rfl | rfl <;> rfl)]
  exact takeLength_found (findLength left) ht hfield

/-- The same just after a refill, when the first byte is compared whatever it is. -/
theorem takeLength_findLength {bp : Buffer Byte} {text : List Byte} {i datsz : ℕ} {f : LengthField}
    {t : Byte} {fuel : ℕ} (hlacks : Lacks sameLetter CONTENT_LENGTH text) (ht : isDigit t = false)
    (h : bp.Holds i (text ++ (f.text ++ [t]))) (hdata : i + text.length < datsz)
    (hfuel : text.length < fuel) :
    Found bp (i + text.length + f.text.length + 1) datsz f
      (takeLength (findLength fuel) ⟨bp, i, datsz⟩) := by
  cases text with
  | nil => exact takeLength_found (findLength fuel) ht h
  | cons c text =>
    simp only [List.length_cons] at hdata hfuel ⊢
    have hfirst : bp.Holds i (c :: text) := (Buffer.holds_append.mp h).1
    rw [takeLength_skip (findLength fuel) hlacks hfirst,
      show i + (text.length + 1) + f.text.length + 1 = i + 1 + text.length + f.text.length + 1 by
        omega]
    exact findLength_found hlacks.tail ht h.2 (by omega) (by omega)

theorem tread_run {α : Type} {nbytes : ℕ} {piece : List Byte} (pieces : List (List Byte))
    (h : piece.length ≤ nbytes) (f : List Byte → Prog sig α) :
    (tread nbytes >>= f).run connection (piece :: pieces) = (f piece).run connection pieces := by
  have hconnection : connection nbytes (piece :: pieces) = (piece, pieces) := if_pos h
  change (f (connection nbytes (piece :: pieces)).1).run connection
    (connection nbytes (piece :: pieces)).2 = _
  rw [hconnection]

/-- More data is put where the index is. -/
theorem getMore_run {bp : Buffer Byte} {i : ℕ} (datsz : ℕ) {piece : List Byte}
    (pieces : List (List Byte)) (hne : piece ≠ []) (hi : i ≤ bp.size)
    (hroom : piece.length ≤ if bp.size ≤ i then IOBUFSZ else bp.size - i) :
    ∃ bp', (getMore ⟨bp, i, datsz⟩).run connection (piece :: pieces) =
      (.ok (some ⟨bp', i, datsz + (i + piece.length)⟩), pieces) ∧ bp'.Holds i piece := by
  obtain ⟨big, hbig, hsize⟩ : ∃ big, (if bp.size ≤ i then bp.grow IOBUFSZ else bp) = big ∧
      i + piece.length ≤ big.size := by
    refine ⟨_, rfl, ?_⟩
    split at hroom
    · rename_i hfull
      rw [if_pos hfull]
      change i + piece.length ≤ bp.size + IOBUFSZ
      omega
    · rename_i hfree
      rw [if_neg hfree]
      omega
  refine ⟨big.write i piece, ?_, Buffer.write_holds hsize⟩
  have hread : (readmore bp i).run connection (piece :: pieces) =
      (.ok (some (big.write i piece, i + piece.length)), pieces) := by
    have hnot : ¬ big.size < i := by omega
    subst hbig
    rw [readmore, if_neg hnot, tread_run pieces (by omega), if_neg hne]
    rfl
  rw [getMore, Prog.run_bind, hread]
  rfl

theorem seekBlank_skip {bp : Buffer Byte} {i : ℕ} {text : List Byte} (left : ℕ)
    (h : bp.Holds i text) (htext : ∀ b ∈ text, b ≠ 10) :
    seekBlank bp (text.length + left) i = seekBlank bp left (i + text.length) := by
  induction text generalizing i with
  | nil => simp
  | cons c text ih =>
    have hc : (c == 10) = false := by simpa using htext c List.mem_cons_self
    have hdiffers : bp.agrees (fun a b => a == b) i [10, 13, 10] = some false :=
      h.agrees (by simp [begins, hc])
    rw [List.length_cons, show text.length + 1 + left = text.length + left + 1 by omega, seekBlank,
      hdiffers]
    simp only [Option.bind_eq_bind, Option.bind_some, Bool.false_eq_true, if_false]
    rw [ih h.2 fun b hb => htext b (List.mem_cons_of_mem c hb)]
    congr 1
    omega

/-- From the end of a line the search goes to the next line as long as this is not empty. -/
theorem seekBlank_lines {bp : Buffer Byte} (fields : List Field) {i left : ℕ}
    (h : bp.Holds i (10 :: (lines fields ++ CRLF))) (hleft : (lines fields).length < left) :
    seekBlank bp left i = some (true, i + (lines fields).length + 3) := by
  induction fields generalizing i left with
  | nil =>
    obtain ⟨left, rfl⟩ := Nat.exists_eq_add_of_lt hleft
    have hblank : bp.agrees (fun a b => a == b) i [10, 13, 10] = some true :=
      h.agrees (by simp [begins, lines, CRLF])
    simp [seekBlank, hblank, lines]
  | cons f fields ih =>
    have hlines : lines (f :: fields) = f.text ++ ([13] ++ (10 :: lines fields)) := by
      simp [lines, CRLF]
    obtain ⟨c, text, htext⟩ := List.exists_cons_of_ne_nil f.text_ne
    have hlen := congrArg List.length hlines
    simp only [List.length_append, List.length_cons, List.length_nil] at hlen
    obtain ⟨left, rfl⟩ := Nat.exists_eq_add_of_lt hleft
    have hdiffers : bp.agrees (fun a b => a == b) i [10, 13, 10] = some false := by
      have hc : (c == 13) = false := by
        simpa using (f.text_line c (htext ▸ List.mem_cons_self)).1
      rw [hlines, htext] at h
      exact h.agrees (by simp [begins, hc])
    have hnext : bp.Holds (i + 1) (f.text ++ [13]) ∧
        bp.Holds (i + 1 + (f.text ++ [13]).length) (10 :: (lines fields ++ CRLF)) := by
      refine Buffer.holds_append.mp ?_
      have htail := h.2
      rw [hlines] at htail
      simpa using htail
    have hskip := seekBlank_skip (left + (lines fields).length + 1) hnext.1 (by
      intro b hb
      rcases List.mem_append.mp hb with hb | hb
      · exact (f.text_line b hb).2
      · rw [List.mem_singleton.mp hb]
        decide)
    rw [ih hnext.2 (by omega), List.length_append, List.length_singleton] at hskip
    rw [seekBlank, hdiffers]
    simp only [Option.bind_eq_bind, Option.bind_some, Bool.false_eq_true, if_false]
    rw [show (lines (f :: fields)).length + left =
      f.text.length + 1 + (left + (lines fields).length + 1) by omega, hskip]
    simp only [Option.some.injEq, Prod.mk.injEq, true_and]
    omega

/-- The end of the header is found, and more data is read if the data ends there. -/
theorem endOfHeader_found {bp : Buffer Byte} {i datsz : ℕ} {text : List Byte} {fields : List Field}
    (fuel : ℕ) (htext : ∀ b ∈ text, b ≠ 10)
    (h : bp.Holds i (text ++ 10 :: (lines fields ++ CRLF)))
    (hdata : i + text.length + (lines fields).length + 3 ≤ datsz) :
    endOfHeader (fuel + 1) ⟨bp, i, datsz⟩ =
      refill ⟨bp, i + text.length + (lines fields).length + 3, datsz⟩ := by
  obtain ⟨hfirst, hrest⟩ := Buffer.holds_append.mp h
  have hseek : seekBlank bp (datsz - 2 - i) i =
      some (true, i + text.length + (lines fields).length + 3) := by
    rw [show datsz - 2 - i = text.length + (datsz - 2 - i - text.length) by omega,
      seekBlank_skip _ hfirst htext, seekBlank_lines fields hrest (by omega)]
  rw [endOfHeader, hseek]
  simp only [inBounds, Prog.ret_bind, if_true]
  refine Eq.trans (congrArg _ (funext fun r => ?_)) (Prog.bind_ret _)
  cases r <;> rfl

/-- The two numbers in the IPP header of a body. -/
def ippStatusOf (body : List Byte) : ℕ := ofBytes ((body.drop 2).take 2)
def requestIdOf (body : List Byte) : ℤ := int32 (ofBytes ((body.drop 4).take 4))

theorem ntoh_of_holds {bp : Buffer Byte} {p n : ℕ} {bytes : List Byte} (h : bp.Holds p bytes)
    (hn : bytes.length = n) : ntoh bp p n = some (ofBytes bytes) := by
  rw [ntoh, ← hn, h.mapM_get, Option.map_some]

theorem ippStatus_spec {bp : Buffer Byte} {i : ℕ} (datsz : ℕ) (jobid : ℤ) {body : List Byte}
    (hbody : 8 ≤ body.length) (h : bp.Holds i (body.take 8)) :
    ippStatus jobid ⟨bp, i, datsz⟩ =
      .ret (decide (requestIdOf body = jobid ∧ ippStatusOf body ≤ 0xff)) := by
  have hsplit : body.take 8 = body.take 2 ++ ((body.drop 2).take 2 ++ (body.drop 4).take 4) := by
    rw [show 8 = 2 + (2 + 4) by rfl, List.take_add, List.take_add, List.drop_drop]
  have hone : (body.take 2).length = 2 := by
    rw [List.length_take]
    omega
  have htwo : ((body.drop 2).take 2).length = 2 := by
    rw [List.length_take, List.length_drop]
    omega
  have hfour : ((body.drop 4).take 4).length = 4 := by
    rw [List.length_take, List.length_drop]
    omega
  rw [hsplit, Buffer.holds_append, Buffer.holds_append, hone, htwo, Nat.add_assoc] at h
  have hstatus : ntoh bp (i + 2) 2 = some (ippStatusOf body) := ntoh_of_holds h.2.1 htwo
  have hrequest : ntoh bp (i + 4) 4 = some (ofBytes ((body.drop 4).take 4)) :=
    ntoh_of_holds h.2.2 hfour
  rw [ippStatus, hstatus, hrequest]
  rw [inBounds, Prog.ret_bind, inBounds, Prog.ret_bind, requestIdOf]
  by_cases hjob : int32 (ofBytes ((body.drop 4).take 4)) = jobid
  · rw [if_neg (not_not_intro hjob)]
    simp [hjob, statclassOk]
  · rw [if_pos hjob]
    simp [hjob]

end Apue.Printer
