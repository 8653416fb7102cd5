import AsmScan.AddressSize
import AsmScan.Scanner.Basic

/-! Questions about the current token.

A name is folded to upper case when it is looked up; nothing else about the scan
changes, but that a missing address size is reported. -/
namespace AsmScan.Scanner

/-- Looks the current token up in a sorted table, if it is a name. -/
def findSubkey (s : Scanner) (keys : Array (List UInt8)) : Option Nat × Scanner :=
  if s.current.token = .identifier then
    let s := s.toUpper
    (SortedTable.search keys s.strValue.bytes, s)
  else (none, s)

/-- The address size that the current token asks for. -/
def addressSize (s : Scanner) : AddressSize × Scanner :=
  let (size?, s) :=
    match AddressSize.ofOverride? s.current.token with
    | some size => (some size, s)
    | none =>
      let (place?, s) := s.findSubkey AddressSize.keys
      (place?.bind AddressSize.atPlace?, s)
  match size? with
  | some size => (size, s)
  | none => (.unspecified, s.report .addressSizeExpected s.current.pos)

end AsmScan.Scanner
