import AsmScan.Charmap
import AsmScan.Lexeme.Basic

/-! Literals in quotes.

The bytes between the quotes are found first (`body`): they end at the closing quote
or at the end of the line, and an escape hides the byte after its backslash. They
are then cut into pieces (`Piece.ofBytes`), each a byte that stands for itself or an
escape.
An escape that does not exist is reported and kept as it is written. -/
namespace AsmScan

/-! ### Pieces -/

/-- A piece of what stands between quotes. -/
inductive Piece where
  /-- A byte that stands for itself. -/
  | byte (b : UInt8)
  /-- An escape written with so many bytes. -/
  | escape (value : UInt8) (width : Nat)
  /-- A backslash before a byte that makes no escape. -/
  | unknown (b : UInt8)
  /-- A hexadecimal escape without digits. -/
  | noDigits
deriving DecidableEq

namespace Piece

/-- How many bytes the piece is written with. -/
def width : Piece → Nat
  | .byte _ => 1
  | .escape _ width => width
  | .unknown _ | .noDigits => 2

/-- The bytes that the piece stands for. -/
def content : Piece → List UInt8
  | .byte b | .escape b _ => [b]
  | .unknown b => [Byte.backslash, b]
  | .noDigits => [Byte.backslash, Byte.lowerX]

/-- What is wrong with the piece, if anything. -/
def problem? : Piece → Option Problem
  | .byte _ | .escape .. => none
  | .unknown b => some (.unknownEscape b)
  | .noDigits => some .hexEscapeWithoutDigits

/-- The byte that an escape of one letter or sign stands for. -/
def named? : UInt8 → Option UInt8
  | Byte.zero => some 0x00
  | Byte.lowerA => some 0x07
  | Byte.lowerB => some 0x08
  | Byte.lowerT => some Byte.tab
  | Byte.lowerN => some Byte.lineFeed
  | Byte.lowerV => some Byte.verticalTab
  | Byte.lowerF => some Byte.formFeed
  | Byte.lowerR => some Byte.carriageReturn
  | Byte.lowerE => some 0x1B
  | Byte.doubleQuote => some Byte.doubleQuote
  | Byte.singleQuote => some Byte.singleQuote
  | Byte.backslash => some Byte.backslash
  | _ => none

/-- The hexadecimal escape whose digits, one or two, stand at the front. -/
def hex (bytes : List UInt8) : Piece :=
  match (bytes.take 2).map digitValue? with
  | [some high, some low] => .escape (16 * high + low) 4
  | some digit :: _ => .escape digit 3
  | _ => .noDigits

/-- The piece that begins with a byte. A backslash with nothing after it stands for itself. -/
def read (first : UInt8) (rest : List UInt8) : Piece :=
  if first = Byte.backslash then
    match rest with
    | [] => .byte first
    | b :: after =>
      match named? b with
      | some value => .escape value 2
      | none => if Byte.toUpper b = Byte.upperX then hex after else .unknown b
  else .byte first

/-- The pieces of what stands between quotes. -/
def ofBytes : List UInt8 → List Piece
  | [] => []
  | first :: rest =>
    let piece := read first rest
    piece :: ofBytes (rest.drop (piece.width - 1))
termination_by bytes => bytes.length
decreasing_by simp only [List.length_drop, List.length_cons]; omega

end Piece

/-! ### Literals -/

/-- What follows an opening quote. -/
structure Quoted where
  pieces : List Piece
  /-- How many bytes it takes, with the closing quote. -/
  size : Nat
  /-- Whether there is a closing quote. -/
  closed : Bool

namespace Quoted

/-- A byte that no literal goes past. -/
def endsLine (b : UInt8) : Bool := b == Byte.lineFeed || b == Byte.carriageReturn

/-- The bytes up to the closing quote or the end of the line. The byte after a backslash that
begins an escape is hidden: it neither closes the literal nor begins an escape. -/
def body (quote : UInt8) (escapes hidden : Bool) : List UInt8 → List UInt8
  | [] => []
  | b :: rest =>
    if endsLine b || (b == quote && !hidden) then []
    else b :: body quote escapes (escapes && b == Byte.backslash && !hidden) rest

/-- The literal whose opening quote stands before some bytes. -/
def read (quote : UInt8) (escapes : Bool) (rest : List UInt8) : Quoted :=
  let body := body quote escapes false rest
  let closed := (rest.drop body.length).head? = some quote
  { pieces := if escapes then Piece.ofBytes body else body.map .byte
    size := body.length + if closed then 1 else 0
    closed }

/-- The bytes that the literal stands for, however many. -/
def content (q : Quoted) : List UInt8 := q.pieces.flatMap Piece.content

/-- The problems of the pieces, the first of which stands at an offset. An escape is reported at
the byte after its backslash. -/
def findingsFrom (offset : Nat) : List Piece → List Finding
  | [] => []
  | piece :: more =>
    (piece.problem?.map fun problem => ⟨offset + 1, problem⟩).toList ++
      findingsFrom (offset + piece.width) more

/-- The problems of the literal, counted from its opening quote. -/
def findings (q : Quoted) : List Finding :=
  findingsFrom 1 q.pieces ++
    Finding.atStartIf (ShortString.maxLength < q.content.length) .stringTooLong ++
    Finding.atStartIf (!q.closed) .unterminatedString

end Quoted

namespace Lexeme

/-- A literal in double quotes. -/
def strLiteral (fs : Features) (rest : List UInt8) : Lexeme :=
  let q := Quoted.read Byte.doubleQuote fs.stringEscapes rest
  { meaning := .token .strConst (.str (.truncate q.content))
    size := 1 + q.size
    findings := q.findings }

/-- A literal in single quotes: one character, which is translated, or a string of several where
such strings are allowed. -/
def charLiteral (fs : Features) (m : Charmap) (rest : List UInt8) : Lexeme :=
  let q := Quoted.read Byte.singleQuote fs.stringEscapes rest
  let char (b : UInt8) (findings : List Finding) : Lexeme :=
    { meaning := .token .charConst (.int (m.translate b).toNat)
      size := 1 + q.size
      findings := q.findings ++ findings }
  match q.content with
  | [] => char 0 (Finding.atStartIf q.closed .emptyCharConst)
  | [b] => char b []
  | b :: _ :: _ =>
    if fs.looseStringTerm then
      { meaning := .token .strConst (.str (.truncate q.content))
        size := 1 + q.size
        findings := q.findings }
    else char b [⟨0, .longCharConst⟩]

end Lexeme
end AsmScan
