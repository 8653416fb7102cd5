import AsmScan.Keyword
import AsmScan.Lexeme.Basic

/-! Words: names, mnemonics, registers, overrides, directives and local labels.

The bytes of a word are read to the last that can stand in a name; a name keeps the
first 255 of them. Case is folded to look a word up, and kept in its attribute. -/
namespace AsmScan.Lexeme

/-- A byte that goes on a name. -/
def isNameByte (fs : Features) (b : UInt8) : Bool :=
  Byte.isNameStart b || Byte.isDigit b || (b == Byte.atSign && fs.atInIdentifiers) ||
    (b == Byte.dollar && fs.dollarInIdentifiers)

/-- The bytes at the front that go on a name. -/
def nameRun (fs : Features) (bytes : List UInt8) : List UInt8 := bytes.takeWhile (isNameByte fs)

/-- Whether a name can begin at the front of some bytes. -/
def startsName : List UInt8 → Bool
  | b :: _ => Byte.isNameStart b
  | [] => false

/-- The problem of a name that is too long to keep. -/
def overlong (name : List UInt8) : List Finding :=
  Finding.atStartIf (ShortString.maxLength < name.length) .nameTooLong

/-- A token that keeps the name it is spelled with. -/
def named (t : Token) (first : UInt8) (more : List UInt8) : Lexeme :=
  { meaning := .token t (.str (.truncate (first :: more)))
    size := 1 + more.length
    findings := overlong (first :: more) }

/-- What a single letter is if not a name: an override before a colon, else a register. -/
def letter? (b : UInt8) (rest : List UInt8) : Option Lexeme :=
  match Keyword.override? (Byte.toUpper b), rest with
  | some t, Byte.colon :: _ => some (plain t 2)
  | _, _ => (Keyword.register? [Byte.toUpper b]).map (plain · 1)

/-- A word that begins with a letter or an underscore. -/
def word (c : Config) (first : UInt8) (rest : List UInt8) : Lexeme :=
  let more := nameRun c.features rest
  let isMnemonic := c.cpu.isMnemonic (ShortString.truncate (first :: more)).toUpper.bytes
  let whole := named (if isMnemonic then .mnemonic else .identifier) first more
  if more.isEmpty then (letter? first rest).getD whole else whole

/-- What a dot begins: a dotted word if a name follows. -/
def dotted (c : Config) (rest : List UInt8) : Lexeme :=
  if startsName rest then
    let more := nameRun c.features rest
    let kept := ShortString.truncate (Byte.dot :: more)
    match Keyword.dotted? kept.toUpper.bytes with
    | some t =>
      { meaning := .token t .none
        size := 1 + more.length
        findings := overlong (Byte.dot :: more) }
    | none =>
      if c.features.leadingDotInIdentifiers then named .identifier Byte.dot more
      else
        { meaning := .rejected
          size := 1 + more.length
          findings := overlong (Byte.dot :: more) ++ [⟨0, .unknownDirective kept⟩] }
  else plain .dot 1

/-- What the mark of local labels begins: a local label if a name follows. -/
def localLabel (c : Config) (rest : List UInt8) : Lexeme :=
  if startsName rest then named .identifier c.localChar.byte (nameRun c.features rest)
  else {meaning := .rejected, size := 1, findings := [⟨0, .unnamedLocal c.localChar⟩]}

end AsmScan.Lexeme
