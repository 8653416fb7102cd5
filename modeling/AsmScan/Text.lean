/-! Text: how it stands in files, how bytes are shown, and how it is set in columns.

Lengths and widths count characters. -/
namespace AsmScan

/-! ### Bytes and text -/

/-- The text whose characters are the bytes, each byte the code point of its value. -/
def latin1 (bytes : List UInt8) : String := String.ofList (bytes.map Char.ofUInt8)

/-- The bytes of a text as it stands in a file. -/
def utf8 (text : String) : List UInt8 := text.toUTF8.data.toList

/-- A byte as two hexadecimal digits, letters in upper case. -/
def hexPair (b : UInt8) : String :=
  String.ofList [(b.toNat / 16).digitChar.toUpper, (b.toNat % 16).digitChar.toUpper]

/-! ### Columns -/

/-- Where a text stands in a column that is wider. -/
inductive Align where
  | left
  | right
  | center
deriving DecidableEq

def spaces (count : Nat) : String := String.ofList (List.replicate count ' ')

/-- The text with spaces around it up to the width. An odd space in the middle of a column goes
to the right. -/
def Align.pad (align : Align) (width : Nat) (text : String) : String :=
  let room := width - text.length
  match align with
  | .left => text ++ spaces room
  | .right => spaces room ++ text
  | .center => spaces (room / 2) ++ text ++ spaces (room - room / 2)

/-- The first characters of a text, as many as the limit allows. -/
def cut (limit : Option Nat) (text : String) : String :=
  match limit with
  | none => text
  | some count => String.ofList (text.toList.take count)

end AsmScan
