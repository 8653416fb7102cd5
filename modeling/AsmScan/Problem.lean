import AsmScan.Base
import AsmScan.Config
import AsmScan.Input.File
import AsmScan.Message
import AsmScan.ShortString

/-! What can be wrong with source text, and how each problem is worded. -/
namespace AsmScan

inductive Problem where
  /-- A source was not entered, or not read to its end. -/
  | input (e : InputError)
  /-- A byte that begins no token. -/
  | strayByte (b : UInt8)
  /-- The mark of local labels without a name after it. -/
  | unnamedLocal (mark : LocalChar)
  /-- A backslash before a byte that makes no escape. -/
  | unknownEscape (b : UInt8)
  /-- A hexadecimal escape without digits. -/
  | hexEscapeWithoutDigits
  | unterminatedString
  | stringTooLong
  | nameTooLong
  | integerTooLarge
  /-- A digit that the base lacks, or no digit at all. -/
  | badDigits (base : Base)
  | emptyCharConst
  | longCharConst
  | unknownDirective (name : ShortString)
  | addressSizeExpected
deriving DecidableEq

namespace Problem

def kind : Problem → ProblemKind
  | .input (.unreadable ..) => .unreadable
  | .input .nestingTooDeep => .nestingTooDeep
  | .strayByte _ | .unnamedLocal _ | .unknownEscape _ | .hexEscapeWithoutDigits => .invalidCharacter
  | .unterminatedString => .unterminatedLiteral
  | .stringTooLong | .nameTooLong => .literalTooLong
  | .integerTooLarge => .integerOverflow
  | .badDigits _ => .invalidNumber
  | .emptyCharConst | .longCharConst => .invalidCharConstant
  | .unknownDirective _ => .invalidDirective
  | .addressSizeExpected => .invalidAddressSize

/-- A byte as a message names it: the character in quotes if it shows, else the value. -/
def showByte (b : UInt8) : String :=
  if Byte.isVisible b then s!"'{latin1 [b]}'" else s!"0x{hexPair b}"

def text : Problem → String
  | .input e => toString e
  | .strayByte b => s!"invalid input character {showByte b}"
  | .unnamedLocal mark => s!"'{mark.char}' must be followed by a label name"
  | .unknownEscape b => s!"invalid escape sequence '\\{latin1 [b]}'"
  | .hexEscapeWithoutDigits => "'\\x' escape requires hexadecimal digits"
  | .unterminatedString => "unterminated string constant"
  | .stringTooLong => "string constant too long"
  | .nameTooLong => "identifier too long"
  | .integerTooLarge => "integer constant too large"
  | .badDigits base => s!"invalid digits in base-{base.radix} number"
  | .emptyCharConst => "empty character constant"
  | .longCharConst => "character constant holds more than one character"
  | .unknownDirective name => s!"unknown directive '{name}'"
  | .addressSizeExpected => "address size specifier expected"

/-- The message about the problem at a position. -/
def toMessage (p : Problem) (pos : Position) : Message := .ofKind p.kind pos p.text

end Problem
end AsmScan
