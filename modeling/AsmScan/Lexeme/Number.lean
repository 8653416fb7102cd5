import AsmScan.Lexeme.Basic
import AsmScan.Numeral

/-! Numbers.

A number is a run of digits, with its base told by what stands before or after the
run:

* `$`, `0x` or a following `h`: hexadecimal
* `%`: binary
* `0o`: octal
* nothing: decimal

A run takes in every hexadecimal digit whatever its base, so that a digit too large
for the base is a fault of the number and not the start of a name. A faulty number
is an integer constant still, of value zero. -/
namespace AsmScan.Lexeme

/-- A byte that goes on a run of digits. -/
def isNumberByte (fs : Features) (b : UInt8) : Bool :=
  (digitValue? b).isSome || (b == Byte.underscore && fs.underlineInNumbers)

/-- The run of digits at the front of some bytes. -/
def digitRun (fs : Features) (bytes : List UInt8) : List UInt8 := bytes.takeWhile (isNumberByte fs)

/-- A run of digits as an integer constant of the given size. -/
def number (base : Base) (run : List UInt8) (size : Nat) (size_pos : 0 < size := by omega) :
    Lexeme :=
  match Numeral.eval base run with
  | .ok value => {meaning := .token .intConst (.int value.toNat), size}
  | .error .tooLarge =>
    {meaning := .token .intConst (.int 0), size, findings := [⟨0, .integerTooLarge⟩]}
  | .error _ => {meaning := .token .intConst (.int 0), size, findings := [⟨0, .badDigits base⟩]}

/-- A number whose marker takes so many bytes. -/
def marked (fs : Features) (base : Base) (marker : Nat) (rest : List UInt8)
    (marker_pos : 0 < marker := by first | exact Nat.zero_lt_one | exact Nat.zero_lt_two) :
    Lexeme :=
  let run := digitRun fs rest
  number base run (marker + run.length)

/-- A number that begins with a decimal digit. -/
def unmarked (fs : Features) (first : UInt8) (rest : List UInt8) : Lexeme :=
  let more := digitRun fs rest
  let run := first :: more
  let after := rest.drop more.length
  let mark := after.head?.map Byte.toUpper
  if mark = some Byte.upperH then number .hexadecimal run (2 + more.length)
  else if run = [Byte.zero] ∧ mark = some Byte.upperX then marked fs .hexadecimal 2 after.tail
  else if run = [Byte.zero] ∧ mark = some Byte.upperO then marked fs .octal 2 after.tail
  else number .decimal run (1 + more.length)

/-- What a dollar sign begins: a number if a digit follows. -/
def dollar (fs : Features) (rest : List UInt8) : Lexeme :=
  if (rest.head?.bind digitValue?).isSome then marked fs .hexadecimal 1 rest
  else if fs.dollarIsPc then plain .programCounter 1
  else stray Byte.dollar

/-- What a percent sign begins: a number if a binary digit follows. -/
def percent (fs : Features) (rest : List UInt8) : Lexeme :=
  if rest.head? = some Byte.zero ∨ rest.head? = some Byte.one then marked fs .binary 1 rest
  else plain .modulo 1

end AsmScan.Lexeme
