import AsmScan.Scanner.Next
import AsmScan.Scanner.Query

/-! Sessions: what a caller does with a scanner, one operation after the other.

An operation changes the scanner and gives a reply. Whatever a caller can bring a
scanner to is brought about by a list of operations (`performAll`). -/
namespace AsmScan

/-- Something that a caller does with a scanner. -/
inductive Operation where
  | next
  | enterFile (path : String)
  | enterBytes (name : Option String) (bytes : List UInt8)
  | leave
  | forceEnd
  | toUpper
  | toLower
  | findSubkey (keys : Array (List UInt8))
  | addressSize
  | setFeature (f : Feature) (on : Bool)
  | setCpu (cpu : Cpu)
  | setLocalChar (mark : LocalChar)
  | setCharmap (m : Charmap)
deriving DecidableEq

/-- What an operation has to say. -/
inductive Reply where
  /-- Nothing to say. -/
  | done
  /-- The token that was found. -/
  | found (t : Token)
  /-- The source was not entered. -/
  | refused (e : InputError)
  /-- Whether there was a source to leave. -/
  | leaving (was : Bool)
  /-- The place of the name in the table. -/
  | place (p : Option Nat)
  | size (size : AddressSize)
deriving DecidableEq

namespace Scanner

/-- The reply to entering a source. -/
def entering : Except InputError Unit × Scanner → Reply × Scanner
  | (.ok (), s) => (.done, s)
  | (.error e, s) => (.refused e, s)

/-- The reply to an operation, and the scanner after it. -/
def perform (files : FileSystem) (s : Scanner) : Operation → Reply × Scanner
  | .next =>
    let s := s.next
    (.found s.current.token, s)
  | .enterFile path => entering (s.enterFile files path)
  | .enterBytes name bytes => entering (s.enterBytes name bytes)
  | .leave =>
    match s.leave? with
    | none => (.leaving false, s)
    | some s => (.leaving true, s)
  | .forceEnd => (.done, s.forceEnd)
  | .toUpper => (.done, s.toUpper)
  | .toLower => (.done, s.toLower)
  | .findSubkey keys =>
    let (p, s) := s.findSubkey keys
    (.place p, s)
  | .addressSize =>
    let (size, s) := s.addressSize
    (.size size, s)
  | .setFeature f on =>
    (.done, {s with config := {s.config with features := s.config.features.set f on}})
  | .setCpu cpu => (.done, {s with config := {s.config with cpu}})
  | .setLocalChar localChar => (.done, {s with config := {s.config with localChar}})
  | .setCharmap charmap => (.done, {s with charmap})

/-- The scanner after a list of operations. -/
def performAll (files : FileSystem) (s : Scanner) (operations : List Operation) : Scanner :=
  operations.foldl (fun s o => (s.perform files o).2) s

end Scanner
end AsmScan
