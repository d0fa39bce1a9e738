import TableClient.Text.Cut
import TableClient.Text.Digits

/-! 128-bit identifiers. They are written in lower case as groups of eight, four, four, four and
twelve hexadecimal digits joined by hyphens, and ordered by their sixteen bytes. -/

namespace TableClient

structure Guid where
  bits : BitVec 128
  deriving DecidableEq, Inhabited

namespace Guid

def zero : Guid := ⟨0⟩

/-- The order of the bytes, most significant first. -/
def compare (g h : Guid) : Ordering :=
  Ord.compare g.bits.toNat h.bits.toNat

/-- The digits, all thirty-two. -/
def digits (g : Guid) : List Char :=
  Text.hexFixed 32 g.bits.toNat

/-- Hyphens after the eighth, twelfth, sixteenth and twentieth of the characters. -/
def hyphenate (ds : List Char) : List Char :=
  ds.take 8 ++ '-' :: (ds.drop 8).take 4 ++ '-' :: (ds.drop 12).take 4 ++
    '-' :: (ds.drop 16).take 4 ++ '-' :: ds.drop 20

def hyphenated (g : Guid) : List Char :=
  hyphenate g.digits

def toText (g : Guid) : String :=
  String.ofList g.hyphenated

/-- Thirty-two digits of either case. -/
def readDigits? (cs : List Char) : Option Guid :=
  if cs.length = 32 then (Text.readHex? cs).map fun n => ⟨BitVec.ofNat 128 n⟩ else none

/-- The hyphenated form, in either case. -/
def readHyphenated? (cs : List Char) : Option Guid :=
  let ds := cs.filter (· ≠ '-')
  if hyphenate ds = cs then readDigits? ds else none

/-- The digits alone, or the hyphenated form: bare, in braces, or after the mark of its name space
in any case. -/
def read? (cs : List Char) : Option Guid :=
  if cs.length = 32 then readDigits? cs
  else if cs.length = 38 then
    (Text.dropLead ['\x7b'] cs).bind fun cs => (Text.dropFinal '\x7d' cs).bind readHyphenated?
  else if cs.length = 45 then
    if (cs.take 9).map Char.toLower = "urn:uuid:".toList then readHyphenated? (cs.drop 9) else none
  else readHyphenated? cs

end Guid

end TableClient
