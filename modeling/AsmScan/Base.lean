import AsmScan.Byte

/-! Numeric bases and their digits. -/
namespace AsmScan

inductive Base where
  | binary
  | octal
  | decimal
  | hexadecimal
deriving DecidableEq

namespace Base

instance : Inhabited Base := ⟨.decimal⟩

/-- In order of radix. -/
def all : List Base := [.binary, .octal, .decimal, .hexadecimal]

def radix : Base → Nat
  | .binary => 2
  | .octal => 8
  | .decimal => 10
  | .hexadecimal => 16

/-- What a literal in the base is written with in front. -/
def marker : Base → String
  | .binary => "%"
  | .octal => "0o"
  | .decimal => ""
  | .hexadecimal => "$"

/-- A value written as a literal: the marker, then the digits, letters in upper case. -/
def format (base : Base) (value : Nat) : String :=
  base.marker ++ String.ofList
    (match base with
    | .binary => Nat.toDigits 2 value
    | .octal => Nat.toDigits 8 value
    | .decimal => Nat.toDigits 10 value
    | .hexadecimal => (Nat.toDigits 16 value).map Char.toUpper)

end Base

/-- The value of a hexadecimal digit. -/
def digitValue? (b : UInt8) : Option UInt8 :=
  if Byte.isDigit b then some (b - Byte.zero)
  else if Byte.upperA ≤ b && b ≤ Byte.upperF then some (b - Byte.upperA + 10)
  else if Byte.lowerA ≤ b && b ≤ Byte.lowerF then some (b - Byte.lowerA + 10)
  else none

end AsmScan
