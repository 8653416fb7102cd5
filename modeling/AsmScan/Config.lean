import AsmScan.Cpu

/-! What can be chosen about the scan: processor, syntax features, local label mark. -/
namespace AsmScan

/-! ### Features -/

/-- An optional part of the syntax. -/
inductive Feature where
  /-- An at sign may stand within a name. -/
  | atInIdentifiers
  /-- A dollar sign may stand within a name. -/
  | dollarInIdentifiers
  /-- A lone dollar sign is the program counter. -/
  | dollarIsPc
  /-- An unknown dotted word is a name. -/
  | leadingDotInIdentifiers
  /-- A backslash at the end of a line joins it with the next. -/
  | lineCont
  /-- Several characters in single quotes are a string. -/
  | looseStringTerm
  /-- Escapes in quotes are decoded. -/
  | stringEscapes
  /-- An underscore between digits is ignored. -/
  | underlineInNumbers
deriving DecidableEq

namespace Feature

/-- All features, in the order of their names. -/
def all : List Feature :=
  [.atInIdentifiers, .dollarInIdentifiers, .dollarIsPc, .leadingDotInIdentifiers, .lineCont,
   .looseStringTerm, .stringEscapes, .underlineInNumbers]

/-- The word by which a feature is looked up. -/
def key : Feature → String
  | .atInIdentifiers => "AT_IN_IDENTIFIERS"
  | .dollarInIdentifiers => "DOLLAR_IN_IDENTIFIERS"
  | .dollarIsPc => "DOLLAR_IS_PC"
  | .leadingDotInIdentifiers => "LEADING_DOT_IN_IDENTIFIERS"
  | .lineCont => "LINE_CONT"
  | .looseStringTerm => "LOOSE_STRING_TERM"
  | .stringEscapes => "STRING_ESCAPES"
  | .underlineInNumbers => "UNDERLINE_IN_NUMBERS"

/-- The name under which a feature is shown: its word in lower case. -/
def name (f : Feature) : String := latin1 ((utf8 f.key).map Byte.toLower)

/-- The feature of a name, in either case. -/
def ofName? (name : String) : Option Feature :=
  (SortedTable.searchAnyCase (SortedTable.keys (all.map Feature.key)) name).bind
    fun place => all[place]?

end Feature

/-- Which features are on. Only escapes are on from the start. -/
structure Features where
  atInIdentifiers : Bool := false
  dollarInIdentifiers : Bool := false
  dollarIsPc : Bool := false
  leadingDotInIdentifiers : Bool := false
  lineCont : Bool := false
  looseStringTerm : Bool := false
  stringEscapes : Bool := true
  underlineInNumbers : Bool := false
deriving DecidableEq

namespace Features

def get (fs : Features) : Feature → Bool
  | .atInIdentifiers => fs.atInIdentifiers
  | .dollarInIdentifiers => fs.dollarInIdentifiers
  | .dollarIsPc => fs.dollarIsPc
  | .leadingDotInIdentifiers => fs.leadingDotInIdentifiers
  | .lineCont => fs.lineCont
  | .looseStringTerm => fs.looseStringTerm
  | .stringEscapes => fs.stringEscapes
  | .underlineInNumbers => fs.underlineInNumbers

/-- Turns a feature on or off. -/
def set (fs : Features) (f : Feature) (on : Bool) : Features :=
  match f with
  | .atInIdentifiers => {fs with atInIdentifiers := on}
  | .dollarInIdentifiers => {fs with dollarInIdentifiers := on}
  | .dollarIsPc => {fs with dollarIsPc := on}
  | .leadingDotInIdentifiers => {fs with leadingDotInIdentifiers := on}
  | .lineCont => {fs with lineCont := on}
  | .looseStringTerm => {fs with looseStringTerm := on}
  | .stringEscapes => {fs with stringEscapes := on}
  | .underlineInNumbers => {fs with underlineInNumbers := on}

/-- The features that are on, in the order of their names. -/
def toList (fs : Features) : List Feature := Feature.all.filter fs.get

end Features

/-! ### The mark of local labels -/

/-- A character that can begin a local label. Any other would hide a token. -/
inductive LocalChar where
  | atSign
  | question
deriving DecidableEq

namespace LocalChar

def all : List LocalChar := [.atSign, .question]

def char : LocalChar → Char
  | .atSign => '@'
  | .question => '?'

def byte : LocalChar → UInt8
  | .atSign => Byte.atSign
  | .question => Byte.question

def ofChar? (c : Char) : Option LocalChar := all.find? fun l => l.char == c

/-- What is said of a character that cannot begin a local label. -/
def refusal (c : Char) : String :=
  s!"invalid local label character '{c}' (expected '@' or '?')"

end LocalChar

/-! ### Configurations -/

structure Config where
  cpu : Cpu := default
  features : Features := {}
  localChar : LocalChar := .atSign
  /-- Messages are written out as they are reported. -/
  echo : Bool := false
deriving DecidableEq

end AsmScan
