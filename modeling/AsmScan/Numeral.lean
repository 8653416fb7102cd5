import AsmScan.Base

/-! The value of a run of digits.

A numeral is a run of digits in some base, in which underscores are ignored. Its
value is limited to 32 bits. The sum is kept in 64 bits and stops growing one past
the limit, so that no run, however long, wraps around to a small value. -/
namespace AsmScan.Numeral

/-- The largest value of an integer literal. -/
def limit : UInt64 := 0xFFFFFFFF

/-- Why a run of digits has no value. -/
inductive Fault where
  | noDigits
  | badDigit
  | tooLarge
deriving DecidableEq

/-- A digit of the base. -/
def digit? (base : Base) (b : UInt8) : Option UInt8 :=
  (digitValue? b).filter fun d => d.toNat < base.radix

/-- One more digit at the end, held one past the limit. -/
def extend (base : Base) (value : UInt64) (digit : UInt8) : UInt64 :=
  let longer := value * base.radix.toUInt64 + digit.toUInt64
  if limit < longer then limit + 1 else longer

/-- The value of a run. A digit the base lacks is found before anything else. -/
def eval (base : Base) (run : List UInt8) : Except Fault UInt64 :=
  match (run.filter (· != Byte.underscore)).mapM (digit? base) with
  | none => .error .badDigit
  | some [] => .error .noDigits
  | some digits =>
    let value := digits.foldl (extend base) 0
    if limit < value then .error .tooLarge else .ok value

end AsmScan.Numeral
