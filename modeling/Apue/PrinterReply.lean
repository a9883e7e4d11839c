import Apue.PrinterScan

/-!
How the printer's answer is judged, and how much that depends on the pieces in which it
comes in. Two things go wrong in printer_status when it reads more than once: it adds the
end of the data that readmore returns to datsz, so that afterwards it takes bytes it has
never received for data, and it reads the rest of a body to where the body begins. Besides,
a response must begin with its own read, and the search for the end of the header never
gets more data in the middle of a header. What is left is below: the pieces with which
printer_status finds everything it looks at.
-/
namespace Apue.Printer

open Programs Decimal Buffers Print

/-- A response that comes before the final one. -/
structure Interim where
  status : StatusLine
  fields : List Field
  status_info : httpInfo status.value = true

def Interim.bytes (x : Interim) : List Byte :=
  x.status.text ++ (CRLF ++ (lines x.fields ++ CRLF))

/-- The final response: the status line, the header with the field for the length of the
body, and the body, which begins with an IPP header. -/
structure Response where
  status : StatusLine
  before : List Field
  length : LengthField
  after : List Field
  body : List Byte
  status_final : httpInfo status.value = false
  body_length : body.length = length.value
  body_ipp : 8 ≤ body.length

namespace Response

/-- The status line with the first byte of its end. -/
def opening (r : Response) : List Byte := r.status.text ++ [13]

/-- From there to the field for the length. -/
def fields (r : Response) : List Byte := 10 :: lines r.before

/-- What follows the value of this field in the header. -/
def closing (r : Response) : List Byte := r.length.trail ++ (CRLF ++ (lines r.after ++ CRLF))

def header (r : Response) : List Byte := r.opening ++ (r.fields ++ (r.length.text ++ r.closing))

def bytes (r : Response) : List Byte := r.header ++ r.body

/-- The job was printed: the code is one of success, the IPP header has the number of the
job and its status is one of success. -/
def Accepted (r : Response) (jobid : ℤ) : Prop :=
  httpSuccess r.status.value = true ∧ requestIdOf r.body = jobid ∧ ippStatusOf r.body ≤ 0xff

instance (r : Response) (jobid : ℤ) : Decidable (r.Accepted jobid) :=
  inferInstanceAs (Decidable (_ ∧ _ ∧ _))

/-- The first piece ends where a second one may begin: before the field for the length, at
a place where no comparison with its name is under way, just behind the byte that ends its
value, or at the end of the header. -/
def CutAfter (r : Response) (piece : List Byte) : Prop :=
  (piece.length < IOBUFSZ ∧ piece.length ≤ (r.opening ++ r.fields).length ∧
    Lacks sameLetter CONTENT_LENGTH (piece.drop r.opening.length)) ∨
  piece.length = (r.opening ++ r.fields ++ r.length.text).length + 1 ∨
  piece.length = r.header.length

/-- The second piece brings the IPP header, and the body is not longer than what datsz,
in which the first piece counts twice, makes of the two. -/
def Completes (r : Response) (piece next : List Byte) : Prop :=
  next.length ≤ (if IOBUFSZ ≤ piece.length then IOBUFSZ else IOBUFSZ - piece.length) ∧
  r.header.length + 8 ≤ piece.length + next.length ∧
  r.bytes.length ≤ 2 * piece.length + next.length

/-- The pieces of the final response with which it is judged as it should be: the status
line is in the first one and, if the response is to be looked at further, the rest is too
or is in the next one. -/
def Judgeable (r : Response) : List (List Byte) → Prop
  | [] => False
  | piece :: pieces =>
    piece.length ≤ IOBUFSZ ∧ r.opening.length ≤ piece.length ∧
    (httpSuccess r.status.value = false → piece.length < IOBUFSZ) ∧
    (httpSuccess r.status.value = true →
      Lacks sameLetter CONTENT_LENGTH (lines r.before) ∧
      (piece.length = r.bytes.length ∨
        ∃ next rest, pieces = next :: rest ∧ r.CutAfter piece ∧ r.Completes piece next))

end Response

/-- Each interim response is one piece, and the pieces of the final one can be judged. -/
def Judgeable (interims : List Interim) (r : Response) (pieces : List (List Byte)) : Prop :=
  ∃ final, pieces = interims.map Interim.bytes ++ final ∧
    (∀ x ∈ interims, x.bytes.length ≤ IOBUFSZ) ∧ r.Judgeable final

/-- With loops that run long enough printer_status returns. -/
def Returns (jobid : ℤ) (memory : ℕ → Byte) (pieces : List (List Byte)) (v : Bool) : Prop :=
  ∃ bound, ∀ fuel, bound ≤ fuel →
    ((printerStatus fuel jobid memory).run connection pieces).1 = .ok v

theorem run_orOut {α : Type} {p : Prog sig (Option α)} {a : α} {pieces pieces' : List (List Byte)}
    (h : p.run connection pieces = (.ok (some a), pieces')) (next : α → Prog sig Bool) :
    (orOut p next).run connection pieces = (next a).run connection pieces' := by
  rw [orOut, Prog.run_bind, h]

theorem refill_of_lt {pos : Position} (h : pos.i < pos.datsz) : refill pos = .ret (some pos) :=
  if_neg (Nat.not_le.mpr h)

theorem refill_of_le {pos : Position} (h : pos.datsz ≤ pos.i) : refill pos = getMore pos :=
  if_pos h

/-- The end of printer_status, from the first byte of the body on. -/
theorem judge_ipp {bp : Buffer Byte} {i datsz : ℕ} {jobid len : ℤ} {body : List Byte}
    (pieces : List (List Byte)) (hbody : 8 ≤ body.length) (h : bp.Holds i (body.take 8))
    (hlen : len ≤ (datsz : ℤ) - i) :
    (orOut (getBody len ⟨bp, i, datsz⟩) (ippStatus jobid)).run connection pieces =
      (.ok (decide (requestIdOf body = jobid ∧ ippStatusOf body ≤ 0xff)), pieces) := by
  have hall : getBody len ⟨bp, i, datsz⟩ = .ret (some ⟨bp, i, datsz⟩) :=
    if_neg (Int.not_lt.mpr hlen)
  rw [hall, run_orOut rfl, ippStatus_spec datsz jobid hbody h]
  rfl

/-- The end of the header and what follows, with the IPP header in the data. -/
theorem judge_rest {bp : Buffer Byte} {i datsz : ℕ} {jobid len : ℤ} {text body : List Byte}
    {fields : List Field} (fuel : ℕ) (pieces : List (List Byte)) (hbody : 8 ≤ body.length)
    (htext : ∀ b ∈ text, b ≠ 10)
    (h : bp.Holds i (text ++ 10 :: (lines fields ++ CRLF) ++ body.take 8))
    (hdata : i + text.length + (lines fields).length + 3 < datsz)
    (hlen : len ≤ (datsz : ℤ) - ↑(i + text.length + (lines fields).length + 3)) :
    (orOut (endOfHeader (fuel + 1) ⟨bp, i, datsz⟩) fun pos =>
      orOut (getBody len pos) (ippStatus jobid)).run connection pieces =
      (.ok (decide (requestIdOf body = jobid ∧ ippStatusOf body ≤ 0xff)), pieces) := by
  obtain ⟨hheader, hipp⟩ := Buffer.holds_append.mp h
  have hend : i + (text ++ 10 :: (lines fields ++ CRLF)).length =
      i + text.length + (lines fields).length + 3 := by
    simp only [List.length_append, List.length_cons, CRLF, List.length_nil]
    omega
  rw [hend] at hipp
  rw [endOfHeader_found fuel htext hheader hdata.le, refill_of_lt hdata, run_orOut rfl]
  exact judge_ipp pieces hbody hipp hlen

/-- The search for the length in data that ends before it. The next piece is put behind the
data, and the index stays where it is. -/
theorem findLength_refill {bp bp' : Buffer Byte} {n datsz' : ℕ} {piece : List Byte}
    {pieces : List (List Byte)} (fuel : ℕ) (hn : n < bp.size)
    (hmore : (getMore ⟨bp, n, n⟩).run connection (piece :: pieces) =
      (.ok (some ⟨bp', n, datsz'⟩), pieces)) :
    (findLength (fuel + 1) ⟨bp, n, n⟩).run connection (piece :: pieces) =
      (takeLength (findLength fuel) ⟨bp', n, datsz'⟩).run connection pieces := by
  have hseek : seekC bp (n - n) n = some n := by
    rw [Nat.sub_self, seekC, Buffer.get, if_pos hn, Option.map_some]
  rw [findLength, hseek, inBounds, Prog.ret_bind, refill_of_le (Nat.le_refl n), Prog.run_bind,
    hmore]

namespace Response

theorem length_opening (r : Response) : r.opening.length = r.status.text.length + 1 := by
  rw [opening, List.length_append, List.length_singleton]

/-- The byte that ends the value, and the rest of the header behind it. -/
theorem closing_eq (r : Response) : ∃ t text, isDigit t = false ∧ (∀ b ∈ text, b ≠ 10) ∧
    r.closing = t :: (text ++ 10 :: (lines r.after ++ CRLF)) := by
  cases htrail : r.length.trail with
  | nil => exact ⟨13, [], by decide, by simp, by rw [closing, htrail]; rfl⟩
  | cons t trail =>
    have hblank := r.length.trail_blank
    rw [htrail] at hblank
    refine ⟨t, trail ++ [13], ?_, fun b hb => ?_, ?_⟩
    · rcases hblank t List.mem_cons_self with rfl | rfl <;> rfl
    · rcases List.mem_append.mp hb with hb | hb
      · rcases hblank b (List.mem_cons_of_mem t hb) with rfl | rfl <;> decide
      · rw [List.mem_singleton.mp hb]
        decide
    · simp [closing, htrail, CRLF]

/-- What the search passes over, with the byte in front of it that was overwritten. -/
theorem lacks_fields {text : List Byte} (h : Lacks sameLetter CONTENT_LENGTH text) :
    Lacks sameLetter CONTENT_LENGTH (0 :: text) :=
  h.cons rfl

theorem lacks_newline {text : List Byte} (h : Lacks sameLetter CONTENT_LENGTH text) :
    Lacks sameLetter CONTENT_LENGTH (10 :: text) :=
  h.cons rfl

/-- The header, of which the part behind the value of the length is still to come. -/
theorem length_header (r : Response) :
    r.header.length = r.opening.length + r.fields.length + r.length.text.length + r.closing.length := by
  simp only [header, List.length_append]
  omega

/-- What printer_status returns for a response with a code of success. -/
def verdict (r : Response) (jobid : ℤ) : Bool :=
  decide (requestIdOf r.body = jobid ∧ ippStatusOf r.body ≤ 0xff)

variable {r : Response} {bp : Buffer Byte} {i e datsz fuel : ℕ} {jobid : ℤ} {t : Byte}
  {text tail : List Byte}

/-- Once the length is known, with the rest of the header and the IPP header in the data. -/
theorem judgeBody_of_found {p : Prog sig (Option (Position × ℤ))} (fuel : ℕ) (jobid : ℤ)
    (pieces : List (List Byte)) (hfound : Found bp e datsz r.length p)
    (htail : ∀ b ∈ tail, b ≠ 10)
    (h : bp.Holds e (tail ++ 10 :: (lines r.after ++ CRLF) ++ r.body.take 8))
    (hdata : e + tail.length + (lines r.after).length + 3 < datsz)
    (hlen : int32 r.length.value ≤ (datsz : ℤ) - ↑(e + tail.length + (lines r.after).length + 3)) :
    ∃ x, p = .ret (some x) ∧ (judgeBody (fuel + 1) jobid x.2 x.1).run connection pieces =
      (.ok (r.verdict jobid), pieces) := by
  obtain ⟨bp', hp, -, hsame⟩ := hfound
  generalize int32 r.length.value = len at hp hlen
  refine ⟨_, hp, ?_⟩
  have hin : e < datsz := by omega
  rw [judgeBody, refill_of_lt hin, run_orOut rfl]
  exact judge_rest fuel pieces r.body_ipp htail (h.congr fun j hj _ => hsame j hj) hdata hlen

/-- Everything is in the data. -/
theorem judge_whole (pieces : List (List Byte)) (ht : isDigit t = false)
    (htail : ∀ b ∈ tail, b ≠ 10) (hlacks : Lacks sameLetter CONTENT_LENGTH text)
    (h : bp.Holds i (text ++ (r.length.text ++ [t]) ++
      (tail ++ 10 :: (lines r.after ++ CRLF) ++ r.body.take 8)))
    (he : e = i + text.length + r.length.text.length + 1)
    (hdata : e + tail.length + (lines r.after).length + 3 < datsz)
    (hlen : int32 r.length.value ≤ (datsz : ℤ) - ↑(e + tail.length + (lines r.after).length + 3))
    (hfuel : text.length < fuel) :
    (judge fuel jobid ⟨bp, i, datsz⟩).run connection pieces =
      (.ok (r.verdict jobid), pieces) := by
  obtain ⟨hfield, hrest⟩ := Buffer.holds_append.mp h
  have hfound := findLength_found hlacks ht hfield (show i + text.length < datsz by omega) hfuel
  rw [← he] at hfound
  have hstart : i + (text ++ (r.length.text ++ [t])).length = e := by
    simp only [List.length_append, List.length_singleton]
    omega
  rw [hstart] at hrest
  obtain ⟨fuel, rfl⟩ := Nat.exists_eq_add_of_lt hfuel
  obtain ⟨x, hx, hrun⟩ := judgeBody_of_found (text.length + fuel) jobid pieces hfound
    htail hrest hdata hlen
  rw [judge, hx, run_orOut rfl]
  exact hrun

variable {next : List Byte} {first : List Byte}

/-- The data ends before the field, and everything else is in the next piece. -/
theorem judge_cut_fields (pieces : List (List Byte)) (ht : isDigit t = false)
    (htail : ∀ b ∈ tail, b ≠ 10) (hfirst : Lacks sameLetter CONTENT_LENGTH first)
    (hlacks : Lacks sameLetter CONTENT_LENGTH text) (h : bp.Holds i first)
    (hend : i + first.length = datsz) (hsize : datsz < bp.size)
    (hroom : next.length ≤ if bp.size ≤ datsz then IOBUFSZ else bp.size - datsz)
    (hnext : text ++ (r.length.text ++ [t]) ++
      (tail ++ 10 :: (lines r.after ++ CRLF) ++ r.body.take 8) <+: next)
    (he : e = datsz + text.length + r.length.text.length + 1)
    (hdata : e + tail.length + (lines r.after).length + 3 < datsz + (datsz + next.length))
    (hlen : int32 r.length.value ≤ (↑(datsz + (datsz + next.length)) : ℤ) -
      ↑(e + tail.length + (lines r.after).length + 3))
    (hfuel : first.length + text.length + 1 < fuel) :
    (judge fuel jobid ⟨bp, i, datsz⟩).run connection (next :: pieces) =
      (.ok (r.verdict jobid), pieces) := by
  have hne : next ≠ [] := by
    rintro rfl
    have hnil := List.prefix_nil.mp hnext
    simp at hnil
  obtain ⟨bp', hmore, hholds⟩ := getMore_run datsz pieces hne hsize.le hroom
  obtain ⟨hfield, hrest⟩ := Buffer.holds_append.mp (hholds.of_begins hnext)
  have hle := List.countP_le_length (p := isC) (l := first)
  obtain ⟨left, rfl⟩ := Nat.exists_eq_add_of_lt (show first.countP isC < fuel by omega)
  have hleft : text.length < left := by omega
  have hfound := takeLength_findLength hlacks ht hfield
    (show datsz + text.length < datsz + (datsz + next.length) by omega) hleft
  rw [← he] at hfound
  have hstart : datsz + (text ++ (r.length.text ++ [t])).length = e := by
    simp only [List.length_append, List.length_singleton]
    omega
  rw [hstart] at hrest
  obtain ⟨x, hx, hrun⟩ := judgeBody_of_found (first.countP isC + left) jobid pieces hfound htail
    hrest hdata hlen
  have hsearch : (findLength (first.countP isC + left + 1) ⟨bp, i, datsz⟩).run connection
      (next :: pieces) = (.ok (some x), pieces) := by
    rw [findLength_skip left hfirst h hend.le, hend, findLength_refill left hsize hmore, hx]
    rfl
  rw [judge, run_orOut hsearch]
  exact hrun

/-- The data ends just behind the byte that ends the value. -/
theorem judge_cut_value (pieces : List (List Byte)) (ht : isDigit t = false)
    (htail : ∀ b ∈ tail, b ≠ 10) (hlacks : Lacks sameLetter CONTENT_LENGTH text)
    (h : bp.Holds i (text ++ (r.length.text ++ [t])))
    (hend : i + text.length + r.length.text.length + 1 = datsz) (hsize : datsz ≤ bp.size)
    (hroom : next.length ≤ if bp.size ≤ datsz then IOBUFSZ else bp.size - datsz)
    (hnext : tail ++ 10 :: (lines r.after ++ CRLF) ++ r.body.take 8 <+: next)
    (hdata : datsz + tail.length + (lines r.after).length + 3 < datsz + (datsz + next.length))
    (hlen : int32 r.length.value ≤ (↑(datsz + (datsz + next.length)) : ℤ) -
      ↑(datsz + tail.length + (lines r.after).length + 3))
    (hfuel : text.length < fuel) :
    (judge fuel jobid ⟨bp, i, datsz⟩).run connection (next :: pieces) =
      (.ok (r.verdict jobid), pieces) := by
  have hne : next ≠ [] := by
    rintro rfl
    have hnil := List.prefix_nil.mp hnext
    simp at hnil
  have hfound := findLength_found hlacks ht h (show i + text.length < datsz by omega) hfuel
  rw [hend] at hfound
  obtain ⟨bp', hp, hsize', -⟩ := hfound
  obtain ⟨bp'', hmore, hholds⟩ := getMore_run datsz pieces hne (hsize.trans_eq hsize'.symm)
    (by rw [hsize']; exact hroom)
  generalize int32 r.length.value = len at hp hlen
  obtain ⟨fuel, rfl⟩ := Nat.exists_eq_add_of_lt hfuel
  rw [judge, hp, run_orOut rfl, judgeBody, refill_of_le (Nat.le_refl datsz), run_orOut hmore]
  exact judge_rest (text.length + fuel) pieces r.body_ipp htail (hholds.of_begins hnext) hdata hlen

/-- The data ends with the header. -/
theorem judge_cut_header (pieces : List (List Byte)) (ht : isDigit t = false)
    (htail : ∀ b ∈ tail, b ≠ 10) (hlacks : Lacks sameLetter CONTENT_LENGTH text)
    (h : bp.Holds i (text ++ (r.length.text ++ [t]) ++ (tail ++ 10 :: (lines r.after ++ CRLF))))
    (hend : i + text.length + r.length.text.length + 1 + tail.length +
      (lines r.after).length + 3 = datsz) (hsize : datsz ≤ bp.size)
    (hroom : next.length ≤ if bp.size ≤ datsz then IOBUFSZ else bp.size - datsz)
    (hnext : r.body.take 8 <+: next)
    (hlen : int32 r.length.value ≤ (↑(datsz + (datsz + next.length)) : ℤ) - ↑datsz)
    (hfuel : text.length < fuel) :
    (judge fuel jobid ⟨bp, i, datsz⟩).run connection (next :: pieces) =
      (.ok (r.verdict jobid), pieces) := by
  have hne : next ≠ [] := by
    rintro rfl
    have hnil := congrArg List.length (List.prefix_nil.mp hnext)
    have hbody := r.body_ipp
    rw [List.length_take, List.length_nil] at hnil
    omega
  obtain ⟨hfield, hrest⟩ := Buffer.holds_append.mp h
  have hfound := findLength_found hlacks ht hfield (show i + text.length < datsz by omega) hfuel
  have hstart : i + (text ++ (r.length.text ++ [t])).length =
      i + text.length + r.length.text.length + 1 := by
    simp only [List.length_append, List.length_singleton]
    omega
  rw [hstart] at hrest
  obtain ⟨bp', hp, hsize', hsame⟩ := hfound
  obtain ⟨bp'', hmore, hholds⟩ := getMore_run datsz pieces hne (hsize.trans_eq hsize'.symm)
    (by rw [hsize']; exact hroom)
  generalize int32 r.length.value = len at hp hlen
  obtain ⟨fuel, rfl⟩ := Nat.exists_eq_add_of_lt hfuel
  have hin : i + text.length + r.length.text.length + 1 < datsz := by omega
  rw [judge, hp, run_orOut rfl, judgeBody, refill_of_lt hin, run_orOut rfl,
    endOfHeader_found _ htail (hrest.congr fun j hj _ => hsame j hj) hend.le, hend,
    refill_of_le (Nat.le_refl datsz), run_orOut hmore]
  exact judge_ipp pieces r.body_ipp (hholds.of_begins hnext) hlen

theorem int32_value (h : r.bytes.length < 2 ^ 31) : int32 r.length.value = r.body.length := by
  have hlen : r.body.length ≤ r.bytes.length := by
    rw [bytes, List.length_append]
    omega
  rw [← r.body_length]
  exact int32_of_lt (by omega)

/-- What is left of the response behind the first bytes of a piece. -/
theorem drop_opening {piece : List Byte} {rest : List Byte} (hbytes : piece ++ rest = r.bytes)
    (hopening : r.opening.length ≤ piece.length) :
    piece.drop r.opening.length ++ rest =
      r.fields ++ (r.length.text ++ (r.closing ++ r.body)) := by
  rw [← List.drop_append_of_le_length hopening, hbytes, bytes, header, List.append_assoc,
    List.drop_left]
  simp only [List.append_assoc]

theorem prefix_of_append {text more piece rest : List Byte} (h : piece ++ rest = text ++ more)
    (hlen : text.length ≤ piece.length) : text <+: piece := by
  have htext : text <+: piece ++ rest := ⟨more, h.symm⟩
  exact List.prefix_of_prefix_length_le htext ⟨rest, rfl⟩ hlen

/-- A response with a code of success is judged by its IPP header. -/
theorem judge_run {piece : List Byte} (jobid : ℤ) {pieces : List (List Byte)}
    (hsize : bp.size = IOBUFSZ)
    (hnull : bp.get r.status.text.length = some 0)
    (hdata : bp.Holds (r.status.text.length + 1) (piece.drop r.opening.length))
    (hbytes : piece ++ pieces.flatten = r.bytes) (hjudge : r.Judgeable (piece :: pieces))
    (hsuccess : httpSuccess r.status.value = true)
    (hfuel : r.fields.length + 3 < fuel) :
    ∃ pieces', (judge fuel jobid ⟨bp, r.status.text.length, piece.length⟩).run connection pieces =
      (.ok (r.verdict jobid), pieces') := by
  obtain ⟨hfits, hopening, -, hjudge⟩ := hjudge
  obtain ⟨hlacks, hpieces⟩ := hjudge hsuccess
  have hfields : Lacks sameLetter CONTENT_LENGTH r.fields := lacks_newline hlacks
  obtain ⟨t, tail, ht, htail, hclosing⟩ := r.closing_eq
  have hsplit := drop_opening hbytes hopening
  have hopen := r.length_opening
  have hhead := r.length_header
  have hall : r.bytes.length = r.header.length + r.body.length := by
    rw [bytes, List.length_append]
  have hclose : r.closing.length = 1 + tail.length + (lines r.after).length + 3 := by
    simp only [hclosing, List.length_cons, List.length_append, CRLF, List.length_nil]
    omega
  have hstart : (piece.drop r.opening.length).length = piece.length - r.opening.length :=
    List.length_drop
  have hipp := r.body_ipp
  rcases hpieces with hwhole | ⟨next, rest, rfl, hcut, hroom, hmany, hlong⟩
  · have hempty : pieces.flatten = [] := by
      have hlen := congrArg List.length hbytes
      rw [List.length_append] at hlen
      exact List.eq_nil_of_length_eq_zero (by omega)
    rw [hempty, List.append_nil] at hsplit
    have hsmall : r.bytes.length < 2 ^ 31 := by
      rw [IOBUFSZ] at hfits
      omega
    have hholds : bp.Holds r.status.text.length (0 :: piece.drop r.opening.length) :=
      ⟨hnull, hdata⟩
    refine ⟨pieces, judge_whole pieces ht htail (lacks_fields hfields) (hholds.of_begins ?_) rfl
      ?_ ?_ ?_⟩
    · rw [hsplit, hclosing]
      refine ⟨r.body.drop 8, ?_⟩
      simp
    · rw [List.length_cons]
      omega
    · rw [int32_value hsmall, List.length_cons]
      omega
    · rw [List.length_cons]
      omega
  · rw [List.flatten_cons] at hsplit
    have hsmall : r.bytes.length < 2 ^ 31 := by
      have hnext : next.length ≤ IOBUFSZ := by split at hroom <;> omega
      rw [IOBUFSZ] at hfits hnext
      omega
    have hfree : next.length ≤ if bp.size ≤ piece.length then IOBUFSZ else bp.size - piece.length := by
      rw [hsize]
      exact hroom
    rcases hcut with ⟨hbefore, hplace, hquiet⟩ | hplace | hplace
    · rw [List.length_append] at hplace
      obtain ⟨more, hmore⟩ : piece.drop r.opening.length <+: r.fields :=
        List.prefix_of_prefix_length_le ⟨_, hsplit⟩ ⟨_, rfl⟩ (by omega)
      have hmorelen := congrArg List.length hmore
      rw [List.length_append] at hmorelen
      rw [← hmore, List.append_assoc, List.append_cancel_left_eq] at hsplit
      have hrest' : next ++ rest.flatten = more ++ (r.length.text ++ [t]) ++
          (tail ++ 10 :: (lines r.after ++ CRLF) ++ r.body.take 8) ++ r.body.drop 8 := by
        rw [hsplit, hclosing]
        simp
      have hmorelacks : Lacks sameLetter CONTENT_LENGTH more := by
        have hdrop := hfields.drop (piece.drop r.opening.length).length
        rwa [← hmore, List.drop_left] at hdrop
      have hnext : more ++ (r.length.text ++ [t]) ++
          (tail ++ 10 :: (lines r.after ++ CRLF) ++ r.body.take 8) <+: next := by
        refine prefix_of_append hrest' ?_
        simp only [List.length_append, List.length_cons, List.length_nil, CRLF, List.length_take]
        omega
      refine ⟨rest, judge_cut_fields rest ht htail (lacks_fields hquiet) hmorelacks
        ⟨hnull, hdata⟩ ?_ ?_ hfree hnext rfl ?_ ?_ ?_⟩
      · rw [List.length_cons]
        omega
      · omega
      · omega
      · rw [int32_value hsmall]
        omega
      · rw [List.length_cons]
        omega
    · rw [List.length_append, List.length_append] at hplace
      have hhere : r.fields ++ (r.length.text ++ (r.closing ++ r.body)) =
          r.fields ++ (r.length.text ++ [t]) ++
            (tail ++ 10 :: (lines r.after ++ CRLF) ++ r.body) := by
        rw [hclosing]
        simp
      obtain ⟨hpiece, hrest⟩ := List.append_inj (hsplit.trans hhere) (by
        simp only [List.length_append, List.length_singleton]
        omega)
      rw [hpiece] at hdata
      have hrest' : next ++ rest.flatten =
          tail ++ 10 :: (lines r.after ++ CRLF) ++ r.body.take 8 ++ r.body.drop 8 := by
        rw [hrest]
        simp
      refine ⟨rest, judge_cut_value rest ht htail (lacks_fields hfields) ⟨hnull, hdata⟩ ?_ ?_ hfree
        ?_ ?_ ?_ ?_⟩
      · rw [List.length_cons]
        omega
      · omega
      · refine prefix_of_append hrest' ?_
        simp only [List.length_append, List.length_cons, List.length_nil, CRLF, List.length_take]
        omega
      · omega
      · rw [int32_value hsmall]
        omega
      · rw [List.length_cons]
        omega
    · have hhere : r.fields ++ (r.length.text ++ (r.closing ++ r.body)) =
          r.fields ++ (r.length.text ++ [t]) ++ (tail ++ 10 :: (lines r.after ++ CRLF)) ++ r.body := by
        rw [hclosing]
        simp
      obtain ⟨hpiece, hrest⟩ := List.append_inj (hsplit.trans hhere) (by
        simp only [List.length_append, List.length_cons, CRLF, List.length_nil]
        omega)
      rw [hpiece] at hdata
      have hrest' : next ++ rest.flatten = r.body.take 8 ++ r.body.drop 8 := by
        rw [hrest, List.take_append_drop]
      refine ⟨rest, judge_cut_header rest ht htail (lacks_fields hfields) ⟨hnull, hdata⟩ ?_ ?_ hfree
        ?_ ?_ ?_⟩
      · rw [List.length_cons]
        omega
      · omega
      · refine prefix_of_append hrest' ?_
        rw [List.length_take]
        omega
      · rw [int32_value hsmall]
        omega
      · rw [List.length_cons]
        omega

end Response

/-- What is done with one response, when its status line is in the piece that was read. -/
theorem responses_head {bp : Buffer Byte} {piece : List Byte} (fuel : ℕ) (jobid : ℤ)
    (pieces : List (List Byte)) (l : StatusLine) (hsize : bp.size = IOBUFSZ)
    (hfits : piece.length ≤ IOBUFSZ) (hline : l.text ++ [13] <+: piece) :
    ∃ bp', bp'.size = IOBUFSZ ∧ bp'.get l.text.length = some 0 ∧
      bp'.Holds (l.text.length + 1) (piece.drop (l.text.length + 1)) ∧
      ∀ rounds, (responses fuel jobid (rounds + 1) bp).run connection (piece :: pieces) =
        (if httpInfo l.value then responses fuel jobid rounds bp'
          else if httpSuccess l.value then judge fuel jobid ⟨bp', l.text.length, piece.length⟩
          else do
            let _ ← inBounds (bp'.set piece.length 0)
            return false).run connection pieces := by
  obtain ⟨rest, rfl⟩ := hline
  have hholds : (bp.write 0 (l.text ++ [13] ++ rest)).Holds 0 (l.text ++ [13] ++ rest) :=
    Buffer.write_holds (by rw [Nat.zero_add, hsize]; exact hfits)
  obtain ⟨hstatus, hrest⟩ := Buffer.holds_append.mp hholds
  obtain ⟨bp', hparse, hsize', hnull, hsame⟩ := statusLine_spec l hstatus
  have hlen : (l.text ++ [13]).length = l.text.length + 1 := by
    rw [List.length_append, List.length_singleton]
  refine ⟨bp', hsize'.trans hsize, hnull, ?_, fun rounds => ?_⟩
  · rw [Nat.zero_add, hlen] at hrest
    rw [← hlen, List.drop_left, hlen]
    exact hrest.congr fun j hj _ => hsame j (by omega)
  · have hne : l.text ++ [13] ++ rest ≠ [] := by simp
    rw [responses, tread_run pieces (by rw [hsize]; exact hfits), if_neg hne, hparse, inBounds,
      Prog.ret_bind]

/-- Interim responses that come in one piece each are read and left. -/
theorem responses_interims (fuel : ℕ) (jobid : ℤ) (bp : Buffer Byte) (interims : List Interim)
    (final : List (List Byte)) (hsize : bp.size = IOBUFSZ)
    (hfits : ∀ x ∈ interims, x.bytes.length ≤ IOBUFSZ) :
    ∃ bp', bp'.size = IOBUFSZ ∧ ∀ rounds,
      (responses fuel jobid (rounds + interims.length) bp).run connection
        (interims.map Interim.bytes ++ final) =
      (responses fuel jobid rounds bp').run connection final := by
  induction interims generalizing bp with
  | nil => exact ⟨bp, hsize, fun _ => rfl⟩
  | cons x interims ih =>
    have hline : x.status.text ++ [13] <+: x.bytes :=
      ⟨10 :: (lines x.fields ++ CRLF), by simp [Interim.bytes, CRLF]⟩
    obtain ⟨bp₁, hsize₁, -, -, hrun₁⟩ := responses_head fuel jobid
      (interims.map Interim.bytes ++ final) x.status hsize (hfits x List.mem_cons_self) hline
    obtain ⟨bp₂, hsize₂, hrun₂⟩ := ih bp₁ hsize₁ fun y hy => hfits y (List.mem_cons_of_mem x hy)
    refine ⟨bp₂, hsize₂, fun rounds => ?_⟩
    have hrun := hrun₁ (rounds + interims.length)
    rw [x.status_info, if_pos rfl] at hrun
    exact hrun.trans (hrun₂ rounds)

/-- The final response. -/
theorem responses_final {bp : Buffer Byte} {r : Response} {fuel : ℕ} {final : List (List Byte)}
    (jobid : ℤ) (hsize : bp.size = IOBUFSZ) (hbytes : final.flatten = r.bytes)
    (hjudge : r.Judgeable final) (hfuel : r.fields.length + 3 < fuel) (rounds : ℕ) :
    ((responses fuel jobid (rounds + 1) bp).run connection final).1 =
      .ok (decide (r.Accepted jobid)) := by
  match final, hjudge with
  | piece :: pieces, hjudge =>
    obtain ⟨hfits, hopening, hother, -⟩ := id hjudge
    rw [List.flatten_cons] at hbytes
    have hline : r.status.text ++ [13] <+: piece :=
      Response.prefix_of_append (hbytes.trans (by rw [Response.bytes, Response.header,
        List.append_assoc, Response.opening])) hopening
    obtain ⟨bp', hsize', hnull, hdata, hrun⟩ :=
      responses_head fuel jobid pieces r.status hsize hfits hline
    rw [hrun rounds, r.status_final, if_neg Bool.false_ne_true]
    rw [← r.length_opening] at hdata
    cases hsuccess : httpSuccess r.status.value with
    | true =>
      obtain ⟨pieces', hverdict⟩ := Response.judge_run jobid hsize' hnull
        (by rw [← r.length_opening]; exact hdata) hbytes hjudge hsuccess hfuel
      rw [if_pos rfl, hverdict]
      simp [Response.verdict, Response.Accepted, hsuccess]
    | false =>
      have hroom : piece.length < bp'.size := by
        rw [hsize']
        exact hother hsuccess
      obtain ⟨bp'', hset, -⟩ := Buffer.set_eq_some (v := (0 : Byte)) hroom
      rw [if_neg Bool.false_ne_true, hset]
      simp [inBounds, Prog.run, Response.Accepted, hsuccess]

/-- Whatever the memory of the buffer held, an answer that comes in pieces in which
printer_status can follow it is judged by what it says. -/
theorem answer_judged (jobid : ℤ) (memory : ℕ → Byte) (interims : List Interim) (r : Response)
    (pieces : List (List Byte))
    (hcut : pieces.flatten = (interims.map Interim.bytes).flatten ++ r.bytes)
    (hjudge : Judgeable interims r pieces) :
    Returns jobid memory pieces (decide (r.Accepted jobid)) := by
  obtain ⟨final, rfl, hfits, hfinal⟩ := hjudge
  have hbytes : final.flatten = r.bytes := by
    rw [List.flatten_append] at hcut
    exact List.append_cancel_left hcut
  refine ⟨interims.length + r.fields.length + 4, fun fuel hfuel => ?_⟩
  obtain ⟨bp, hsize, hrun⟩ := responses_interims fuel jobid ⟨IOBUFSZ, memory⟩ interims final
    rfl hfits
  obtain ⟨rounds, hrounds⟩ := Nat.exists_eq_add_of_le (show interims.length + 1 ≤ fuel by omega)
  have hstart := hrun (rounds + 1)
  rw [show rounds + 1 + interims.length = fuel by omega] at hstart
  rw [printerStatus, hstart]
  exact responses_final jobid hsize hbytes hfinal (by omega) rounds

/-- The bytes of a text. -/
def bytesOf (text : String) : List Byte := text.toList.map fun c => UInt8.ofNat c.toNat

def okLine : StatusLine where
  major := 49
  minor := 49
  code := [50, 48, 48]
  reason := [79, 75]
  code_length := rfl
  code_digits := by decide
  reason_line := by decide

def continueLine : StatusLine := { okLine with
  code := [49, 48, 48]
  code_length := rfl
  code_digits := by decide }

def continueReply : Interim := ⟨continueLine, [], rfl⟩

def typeField : Field where
  text := bytesOf "Content-Type: application/ipp"
  text_ne := by decide
  text_line := by decide

def lengthEight : LengthField where
  name := bytesOf "Content-Length:"
  pad := [32]
  digits := [56]
  trail := []
  name_eq := rfl
  pad_blank := by decide
  digits_ne := by decide
  digits_digits := by decide
  trail_blank := by decide

/-- A response to job 7 with the status zero and nothing else in the body. -/
def okReply : Response where
  status := okLine
  before := [typeField]
  length := lengthEight
  after := []
  body := [1, 1, 0, 0, 0, 0, 0, 7]
  status_final := rfl
  body_length := rfl
  body_ipp := by decide

/-- An interim response, a header and a body, each in its own piece. -/
theorem answer_judged_separate :
    Returns 7 (fun _ => 0) [continueReply.bytes, okReply.header, okReply.body] true := by
  have hjudge : Judgeable [continueReply] okReply
      [continueReply.bytes, okReply.header, okReply.body] := by
    refine ⟨[okReply.header, okReply.body], rfl, by decide, by decide, by decide, by decide, ?_⟩
    exact fun _ => ⟨by decide, Or.inr ⟨okReply.body, [], rfl, Or.inr (Or.inr rfl), by decide,
      by decide, by decide⟩⟩
  exact answer_judged 7 (fun _ => 0) [continueReply] okReply _ (by decide) hjudge

/-- The header with half of the body and the rest of the body. The rest is read to where
the body begins, and what is taken for the number of the job is not the one sent. -/
theorem answer_misjudged : ¬ ∀ (jobid : ℤ) (memory : ℕ → Byte) (interims : List Interim)
    (r : Response) (pieces : List (List Byte)), (∀ piece ∈ pieces, piece ≠ []) →
    pieces.flatten = (interims.map Interim.bytes).flatten ++ r.bytes →
    Returns jobid memory pieces (decide (r.Accepted jobid)) := by
  intro h
  have haccepted : decide (okReply.Accepted 7) = true := by decide
  obtain ⟨bound, hbound⟩ := h 7 (fun _ => 0) [] okReply
    [okReply.header ++ okReply.body.take 4, okReply.body.drop 4] (by decide) (by decide)
  have hwrong : ((printerStatus (bound + 9) 7 fun _ => 0).run connection
      [okReply.header ++ okReply.body.take 4, okReply.body.drop 4]).1 = .ok false := by
    rfl
  rw [hbound (bound + 9) (Nat.le_add_right bound 9), haccepted] at hwrong
  cases hwrong

end Apue.Printer
