import AsmScan.ShortString

/-! Attributes: what a token carries besides its kind. -/
namespace AsmScan

inductive Attr where
  | none
  | int (value : Int)
  | str (text : ShortString)
deriving DecidableEq

namespace Attr

def int? : Attr → Option Int
  | .int value => some value
  | _ => .none

def str? : Attr → Option ShortString
  | .str text => some text
  | _ => .none

/-- Changes the string, if there is one. -/
def mapStr (f : ShortString → ShortString) : Attr → Attr
  | .str text => .str (f text)
  | a => a

instance : ToString Attr where
  toString
    | .none => ""
    | .int value => toString value
    | .str text => toString text

/-- The attribute in a column. A missing one leaves no column at all; an integer is never cut and
stands to the right unless told otherwise; a string is cut first and stands to the left. -/
def format (align : Option Align) (width : Nat) (limit : Option Nat) : Attr → String
  | .none => ""
  | .int value => (align.getD .right).pad width (toString value)
  | .str text => (align.getD .left).pad width (cut limit (toString text))

end Attr
end AsmScan
