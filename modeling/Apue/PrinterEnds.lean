import Apue.PrinterLoops
import Apue.PrinterScan

/-!
When printer_status returns. What it does is decided by what malloc left in the buffer and
by the pieces that come in: each read is put over what the buffer held, at the beginning for
a new response and otherwise at the index, where this comes to the end of what is taken for
data. It returns if every place that is looked at is in the buffer and the blank line begins
three bytes before the end of what is taken for data, or if nothing more comes in.
-/
namespace Apue.Printer

open Programs Decimal Buffers Formats Print

/-- The buffer that readmore reads into. -/
def Position.room (pos : Position) : Buffer Byte :=
  if pos.bp.size ≤ pos.i then pos.bp.grow IOBUFSZ else pos.bp

/-- Nothing more comes in, or `next` holds of what is held then. -/
def Fetched (pos : Position) (pieces : List (List Byte))
    (next : Position → List (List Byte) → Prop) : Prop :=
  pos.i ≤ pos.room.size ∧
    let r := connection (pos.room.size - pos.i) pieces
    r.1 ≠ [] →
      next ⟨pos.room.write pos.i r.1, pos.i, pos.datsz + (pos.i + r.1.length)⟩ r.2

/-- More is fetched at the end of what is taken for data. -/
def Refilled (pos : Position) (pieces : List (List Byte))
    (next : Position → List (List Byte) → Prop) : Prop :=
  if pos.datsz ≤ pos.i then Fetched pos pieces next else next pos pieces

/-- The IPP header is in the buffer. -/
def IppInside (pos : Position) : Prop := pos.i + 8 ≤ pos.bp.size

/-- The body begins at the index. -/
def BodyEnds (len : ℤ) (pos : Position) (pieces : List (List Byte)) : Prop :=
  if (pos.datsz : ℤ) - pos.i < len then Fetched pos pieces fun pos _ => IppInside pos
  else IppInside pos

/-- The value of the length ends at the index, and there is a blank line behind it. -/
def HeaderEnds (len : ℤ) (pos : Position) (pieces : List (List Byte)) : Prop :=
  Refilled pos pieces fun pos rest =>
    ∃ j, seekBlank pos.bp (pos.datsz - 2 - pos.i) pos.i = some (true, j) ∧
      Refilled { pos with i := j } rest (BodyEnds len)

/-- The name Content-Length stands at one of the places from the index on, or nothing more
comes in before it. -/
inductive FieldEnds : Position → List (List Byte) → Prop
  | silent {pos pieces} : pos.i < pos.bp.size → pos.datsz ≤ pos.i →
      (connection (pos.bp.size - pos.i) pieces).1 = [] → FieldEnds pos pieces
  | more {pos pieces data rest} : pos.i < pos.bp.size → pos.datsz ≤ pos.i →
      connection (pos.bp.size - pos.i) pieces = (data, rest) → data ≠ [] →
      FieldEnds ⟨pos.bp.write pos.i data, pos.i, pos.datsz + (pos.i + data.length)⟩ rest →
      FieldEnds pos pieces
  | other {pos pieces} : pos.i < pos.datsz →
      pos.bp.agrees sameLetter pos.i CONTENT_LENGTH = some false →
      FieldEnds { pos with i := pos.i + 1 } pieces → FieldEnds pos pieces
  | found {pos pieces bp i len} : pos.i < pos.datsz →
      pos.bp.agrees sameLetter pos.i CONTENT_LENGTH = some true →
      lengthField pos.bp pos.i = some (bp, i, len) →
      HeaderEnds len ⟨bp, i, pos.datsz⟩ pieces → FieldEnds pos pieces

/-- The string at the beginning of the buffer ends in it and has no conversion. -/
def Loggable (bp : Buffer Byte) : Prop :=
  ∃ fmt, bp.takeWhile (fun b => b != 0) 0 = some fmt ∧ noConversion fmt = true

/-- The responses in the pieces, each put over what the buffer held. -/
inductive Ends : Buffer Byte → List (List Byte) → Prop
  | silent {bp pieces} : (connection bp.size pieces).1 = [] → Ends bp pieces
  | noCode {bp pieces data rest} : connection bp.size pieces = (data, rest) → data ≠ [] →
      statusLine (bp.write 0 data) = some none → Loggable (bp.write 0 data) →
      Ends (bp.write 0 data) rest → Ends bp pieces
  | info {bp pieces data rest bp' cp code} : connection bp.size pieces = (data, rest) →
      data ≠ [] → statusLine (bp.write 0 data) = some (some (bp', cp, code)) →
      httpInfo code = true → Ends bp' rest → Ends bp pieces
  | success {bp pieces data rest bp' cp code} : connection bp.size pieces = (data, rest) →
      data ≠ [] → statusLine (bp.write 0 data) = some (some (bp', cp, code)) →
      httpSuccess code = true → FieldEnds ⟨bp', cp, data.length⟩ rest → Ends bp pieces
  | error {bp pieces data rest bp' cp code} : connection bp.size pieces = (data, rest) →
      data ≠ [] → statusLine (bp.write 0 data) = some (some (bp', cp, code)) →
      httpInfo code = false → httpSuccess code = false → data.length < bp'.size → Ends bp pieces

section

variable {bp bp' : Buffer Byte} {pieces : List (List Byte)} {cp : ℕ} {code : ℤ}

end

end Apue.Printer
