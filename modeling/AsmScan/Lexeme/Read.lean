import AsmScan.Lexeme.Number
import AsmScan.Lexeme.Operator
import AsmScan.Lexeme.Quoted
import AsmScan.Lexeme.Word

/-! The lexeme at the front of the unread bytes.

`Lexeme.read` is a function of the configuration, the character map and the bytes of
one frame alone: what was scanned before, and what lies below the frame, has no part
in it. -/
namespace AsmScan.Lexeme

/-- A comment, up to the end of its line. -/
def comment (rest : List UInt8) : Lexeme :=
  blank (1 + (rest.takeWhile (· != Byte.lineFeed)).length)

/-- What a backslash begins where lines can be joined: the end of a line that goes on in the next.
A line ends with a line feed, a carriage return or both. Before anything else the backslash is
stray. -/
def joint : List UInt8 → Lexeme
  | Byte.lineFeed :: _ => blank 2
  | Byte.carriageReturn :: Byte.lineFeed :: _ => blank 3
  | Byte.carriageReturn :: _ => blank 2
  | _ => {meaning := .blank, size := 1, findings := [⟨0, .strayByte Byte.backslash⟩]}

/-- The lexeme that begins with a byte. The mark of local labels goes before all else. -/
def read (c : Config) (m : Charmap) (first : UInt8) (rest : List UInt8) : Lexeme :=
  if first = c.localChar.byte then localLabel c rest
  else if Byte.isBlank first then blank 1
  else if Byte.isNameStart first then word c first rest
  else if Byte.isDigit first then unmarked c.features first rest
  else
    match first with
    | Byte.lineFeed => {meaning := .lineEnd, size := 1}
    | Byte.semicolon => comment rest
    | Byte.backslash => if c.features.lineCont then joint rest else stray first
    | Byte.dot => dotted c rest
    | Byte.dollar => dollar c.features rest
    | Byte.percent => percent c.features rest
    | Byte.doubleQuote => strLiteral c.features rest
    | Byte.singleQuote => charLiteral c.features m rest
    | _ => (operator? first rest).getD (stray first)

end AsmScan.Lexeme
