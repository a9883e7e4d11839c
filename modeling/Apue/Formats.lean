import Apue.Decimal
import Apue.Programs

/-!
Texts that are handed to printf for a format, with no arguments behind them. Two percent
signs stand for one of them; any other percent sign begins a conversion, which takes an
argument that was never passed, and what happens then is not defined. A program stops
there.
-/
namespace Apue.Formats

open Decimal Programs

/-- The format has no conversion. -/
def noConversion : List Byte → Bool
  | [] => true
  | [c] => c != 37
  | c :: d :: text => if c = 37 then d == 37 && noConversion text else noConversion (d :: text)

def CONVERSION : String := "a conversion without an argument"

/-- A text is logged as a format. -/
def logMsg {S : Signature} (fmt : List Byte) : Prog S Unit :=
  if noConversion fmt = true then .ret () else .abort CONVERSION

theorem logMsg_of {S : Signature} {fmt : List Byte} (h : noConversion fmt = true) :
    (logMsg fmt : Prog S Unit) = .ret () := if_pos h

end Apue.Formats
