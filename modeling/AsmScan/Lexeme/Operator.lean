import AsmScan.Lexeme.Basic

/-! Operators and punctuation, the longest spelling first. -/
namespace AsmScan.Lexeme

/-- What a colon begins: an operator of two signs, or a reference to an unnamed label, one sign for
each label to be counted. -/
def colon : List UInt8 → Lexeme
  | Byte.colon :: _ => plain .scope 2
  | Byte.equal :: _ => plain .assign 2
  | Byte.plus :: rest =>
    let more := (rest.takeWhile (· == Byte.plus)).length
    {meaning := .token .unnamedLabel (.int (1 + more)), size := 2 + more}
  | Byte.minus :: rest =>
    let more := (rest.takeWhile (· == Byte.minus)).length
    {meaning := .token .unnamedLabel (.int (-(1 + more))), size := 2 + more}
  | _ => plain .colon 1

/-- What a sign begins that stands alone or before one of some others. -/
def pair (single : Token) (seconds : List (UInt8 × Token)) (rest : List UInt8) : Lexeme :=
  match rest.head?.bind (seconds.lookup ·) with
  | some t => plain t 2
  | none => plain single 1

/-- The operator that a byte begins, if it begins one. -/
def operator? (first : UInt8) (rest : List UInt8) : Option Lexeme :=
  match first with
  | Byte.colon => some (colon rest)
  | Byte.less =>
    some (pair .less
      [(Byte.equal, .lessEqual), (Byte.greater, .notEqual), (Byte.less, .shiftLeft)] rest)
  | Byte.greater =>
    some (pair .greater [(Byte.equal, .greaterEqual), (Byte.greater, .shiftRight)] rest)
  | Byte.ampersand => some (pair .bitAnd [(Byte.ampersand, .boolAnd)] rest)
  | Byte.pipe => some (pair .bitOr [(Byte.pipe, .boolOr)] rest)
  | Byte.comma => some (plain .comma 1)
  | Byte.hash => some (plain .hash 1)
  | Byte.equal => some (plain .equal 1)
  | Byte.plus => some (plain .plus 1)
  | Byte.minus => some (plain .minus 1)
  | Byte.star => some (plain .times 1)
  | Byte.slash => some (plain .divide 1)
  | Byte.bang => some (plain .modulo 1)
  | Byte.caret => some (plain .bitXor 1)
  | Byte.tilde => some (plain .bitNot 1)
  | Byte.leftParen => some (plain .leftParen 1)
  | Byte.rightParen => some (plain .rightParen 1)
  | Byte.leftBracket => some (plain .leftBracket 1)
  | Byte.rightBracket => some (plain .rightBracket 1)
  | _ => none

end AsmScan.Lexeme
