/-! Bytes of source text.

Source text is a list of bytes. This module names the bytes that mean something
to an assembler, and says which are blanks, letters and digits, and how ASCII case
is folded. -/
namespace AsmScan.Byte

/-! ### Named bytes -/

@[match_pattern] abbrev tab : UInt8 := 0x09
@[match_pattern] abbrev lineFeed : UInt8 := 0x0A
@[match_pattern] abbrev verticalTab : UInt8 := 0x0B
@[match_pattern] abbrev formFeed : UInt8 := 0x0C
@[match_pattern] abbrev carriageReturn : UInt8 := 0x0D
@[match_pattern] abbrev space : UInt8 := 0x20
@[match_pattern] abbrev bang : UInt8 := 0x21
@[match_pattern] abbrev doubleQuote : UInt8 := 0x22
@[match_pattern] abbrev hash : UInt8 := 0x23
@[match_pattern] abbrev dollar : UInt8 := 0x24
@[match_pattern] abbrev percent : UInt8 := 0x25
@[match_pattern] abbrev ampersand : UInt8 := 0x26
@[match_pattern] abbrev singleQuote : UInt8 := 0x27
@[match_pattern] abbrev leftParen : UInt8 := 0x28
@[match_pattern] abbrev rightParen : UInt8 := 0x29
@[match_pattern] abbrev star : UInt8 := 0x2A
@[match_pattern] abbrev plus : UInt8 := 0x2B
@[match_pattern] abbrev comma : UInt8 := 0x2C
@[match_pattern] abbrev minus : UInt8 := 0x2D
@[match_pattern] abbrev dot : UInt8 := 0x2E
@[match_pattern] abbrev slash : UInt8 := 0x2F
@[match_pattern] abbrev zero : UInt8 := 0x30
@[match_pattern] abbrev one : UInt8 := 0x31
@[match_pattern] abbrev nine : UInt8 := 0x39
@[match_pattern] abbrev colon : UInt8 := 0x3A
@[match_pattern] abbrev semicolon : UInt8 := 0x3B
@[match_pattern] abbrev less : UInt8 := 0x3C
@[match_pattern] abbrev equal : UInt8 := 0x3D
@[match_pattern] abbrev greater : UInt8 := 0x3E
@[match_pattern] abbrev question : UInt8 := 0x3F
@[match_pattern] abbrev atSign : UInt8 := 0x40
@[match_pattern] abbrev upperA : UInt8 := 0x41
@[match_pattern] abbrev upperF : UInt8 := 0x46
@[match_pattern] abbrev upperH : UInt8 := 0x48
@[match_pattern] abbrev upperO : UInt8 := 0x4F
@[match_pattern] abbrev upperS : UInt8 := 0x53
@[match_pattern] abbrev upperX : UInt8 := 0x58
@[match_pattern] abbrev upperY : UInt8 := 0x59
@[match_pattern] abbrev upperZ : UInt8 := 0x5A
@[match_pattern] abbrev leftBracket : UInt8 := 0x5B
@[match_pattern] abbrev backslash : UInt8 := 0x5C
@[match_pattern] abbrev rightBracket : UInt8 := 0x5D
@[match_pattern] abbrev caret : UInt8 := 0x5E
@[match_pattern] abbrev underscore : UInt8 := 0x5F
@[match_pattern] abbrev lowerA : UInt8 := 0x61
@[match_pattern] abbrev lowerB : UInt8 := 0x62
@[match_pattern] abbrev lowerE : UInt8 := 0x65
@[match_pattern] abbrev lowerF : UInt8 := 0x66
@[match_pattern] abbrev lowerN : UInt8 := 0x6E
@[match_pattern] abbrev lowerR : UInt8 := 0x72
@[match_pattern] abbrev lowerT : UInt8 := 0x74
@[match_pattern] abbrev lowerV : UInt8 := 0x76
@[match_pattern] abbrev lowerX : UInt8 := 0x78
@[match_pattern] abbrev lowerZ : UInt8 := 0x7A
@[match_pattern] abbrev pipe : UInt8 := 0x7C
@[match_pattern] abbrev tilde : UInt8 := 0x7E

/-! ### Classes -/

def isUpper (b : UInt8) : Bool := upperA ≤ b && b ≤ upperZ
def isLower (b : UInt8) : Bool := lowerA ≤ b && b ≤ lowerZ
def isDigit (b : UInt8) : Bool := zero ≤ b && b ≤ nine

/-- A byte that is passed over within a line. -/
def isBlank (b : UInt8) : Bool :=
  b == space || b == tab || b == verticalTab || b == formFeed || b == carriageReturn

/-- A byte that can begin a name. -/
def isNameStart (b : UInt8) : Bool := isUpper b || isLower b || b == underscore

/-- A byte that shows as a mark of its own: ASCII without blanks and controls. -/
def isVisible (b : UInt8) : Bool := bang ≤ b && b ≤ tilde

/-! ### Case -/

def toUpper (b : UInt8) : UInt8 := if isLower b then b - 0x20 else b
def toLower (b : UInt8) : UInt8 := if isUpper b then b + 0x20 else b

end AsmScan.Byte
