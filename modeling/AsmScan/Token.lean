import AsmScan.Directive

/-! Tokens: the kinds of word that source text is made of. -/
namespace AsmScan

inductive Token where
  /-- Nothing has been scanned yet. -/
  | initial
  /-- The end of all input. -/
  | eof
  /-- The end of a line. -/
  | separator
  | identifier
  /-- The name of an instruction of the processor. -/
  | mnemonic
  | intConst
  | charConst
  | strConst
  | registerA
  | registerX
  | registerY
  | registerS
  /-- A lone dollar sign, where it stands for the program counter. -/
  | programCounter
  | assign
  /-- A reference so many unnamed labels ahead or back. -/
  | unnamedLabel
  | equal
  | notEqual
  | less
  | greater
  | lessEqual
  | greaterEqual
  | boolAnd
  | boolOr
  | boolXor
  | boolNot
  | plus
  | minus
  | times
  | divide
  | modulo
  | bitOr
  | bitXor
  | bitAnd
  | shiftLeft
  | shiftRight
  | bitNot
  | scope
  | dot
  | comma
  | hash
  | colon
  | leftParen
  | rightParen
  | leftBracket
  | rightBracket
  | overrideZeropage
  | overrideAbsolute
  | overrideFar
  /-- A parameter of a macro, put in by its expansion and never scanned. -/
  | macroParameter
  /-- The counter of a repetition, put in by its expansion and never scanned. -/
  | repeatCounter
  | directive (d : Directive)
deriving DecidableEq

namespace Token

/-- The multiplication sign, read as the current location. -/
abbrev star : Token := .times

/-- The exclusive-or sign, read as the bank byte operator. -/
abbrev bank : Token := .bitXor

/-- All tokens: first those that are no directives, then the directives by name. -/
def all : List Token :=
  [.initial, .eof, .separator, .identifier, .mnemonic, .intConst, .charConst, .strConst, .registerA,
   .registerX, .registerY, .registerS, .programCounter, .assign, .unnamedLabel, .equal, .notEqual,
   .less, .greater, .lessEqual, .greaterEqual, .boolAnd, .boolOr, .boolXor, .boolNot, .plus, .minus,
   .times, .divide, .modulo, .bitOr, .bitXor, .bitAnd, .shiftLeft, .shiftRight, .bitNot, .scope,
   .dot, .comma, .hash, .colon, .leftParen, .rightParen, .leftBracket, .rightBracket,
   .overrideZeropage, .overrideAbsolute, .overrideFar, .macroParameter, .repeatCounter] ++
  Directive.all.map .directive

/-- The place of the token among all of them. -/
def ordinal (t : Token) : Nat := all.idxOf t

def isDirective : Token → Bool
  | .directive _ => true
  | _ => false

/-- Whether the token ends a statement. -/
def isSeparator : Token → Bool
  | .separator | .eof => true
  | _ => false

def isRegister : Token → Bool
  | .registerA | .registerX | .registerY | .registerS => true
  | _ => false

/-- Whether the token carries an integer. -/
def hasInt : Token → Bool
  | .intConst | .charConst | .unnamedLabel | .macroParameter | .repeatCounter => true
  | _ => false

/-- Whether the token carries a string. -/
def hasString : Token → Bool
  | .identifier | .mnemonic | .strConst => true
  | _ => false

/-- How the token is shown. A token with one spelling is shown as it is spelled. -/
def name : Token → String
  | .initial => "none"
  | .eof => "EOF"
  | .separator => "SEP"
  | .identifier => "ident"
  | .mnemonic => "mnemo"
  | .intConst => "intcon"
  | .charConst => "charcon"
  | .strConst => "strcon"
  | .registerA => "A"
  | .registerX => "X"
  | .registerY => "Y"
  | .registerS => "S"
  | .programCounter => "$"
  | .assign => ":="
  | .unnamedLabel => ":+-"
  | .equal => "="
  | .notEqual => "<>"
  | .less => "<"
  | .greater => ">"
  | .lessEqual => "<="
  | .greaterEqual => ">="
  | .boolAnd => "&&"
  | .boolOr => "||"
  | .boolXor => ".XOR"
  | .boolNot => ".NOT"
  | .plus => "+"
  | .minus => "-"
  | .times => "*"
  | .divide => "/"
  | .modulo => "!"
  | .bitOr => "|"
  | .bitXor => "^"
  | .bitAnd => "&"
  | .shiftLeft => "<<"
  | .shiftRight => ">>"
  | .bitNot => "~"
  | .scope => "::"
  | .dot => "."
  | .comma => ","
  | .hash => "#"
  | .colon => ":"
  | .leftParen => "("
  | .rightParen => ")"
  | .leftBracket => "["
  | .rightBracket => "]"
  | .overrideZeropage => "z:"
  | .overrideAbsolute => "a:"
  | .overrideFar => "f:"
  | .macroParameter => "macparam"
  | .repeatCounter => "repcounter"
  | .directive d => d.name

end Token
end AsmScan
