import AsmScan.Attr
import AsmScan.Charmap
import AsmScan.Input.Stack
import AsmScan.Problem
import AsmScan.Token

/-! Scanners: sources being read, and the token they have come to. -/
namespace AsmScan

/-- A token where it was found. -/
structure Occurrence where
  token : Token
  attr : Attr
  /-- Whether something was passed over before it. -/
  spaced : Bool
  pos : Position
deriving DecidableEq

structure Scanner where
  input : InputStack
  /-- The token found last. -/
  current : Occurrence
  /-- Whether no more is read, whatever the sources hold. -/
  forcedEnd : Bool := false
  config : Config
  charmap : Charmap := default
  diagnostics : Diagnostics := .empty
deriving DecidableEq

namespace Scanner

/-! ### Making a scanner -/

/-- A scanner that has found nothing yet. -/
def ofInput (config : Config) (input : InputStack) : Scanner :=
  {input, config, current := ⟨.initial, .none, false, input.pos⟩}

/-- A scanner of a text in memory, located under a name from its first byte. -/
def ofBytes (config : Config) (name : String) (bytes : List UInt8) : Scanner :=
  ofInput config (.ofFrame (.ofBytes name .start bytes))

/-- A scanner of a file. -/
def ofFile (files : FileSystem) (config : Config) (path : String) : Except InputError Scanner :=
  (InputStack.empty.pushFile files path).map (ofInput config)

/-! ### Problems -/

def report (s : Scanner) (p : Problem) (pos : Position) : Scanner :=
  {s with diagnostics := s.diagnostics.report (p.toMessage pos)}

/-- Reports that a source cannot be read, and ends the scan. -/
def fail (s : Scanner) (e : InputError) (pos : Position) : Scanner :=
  {s.report (.input e) pos with forcedEnd := true}

/-! ### The sources -/

def depth (s : Scanner) : Nat := s.input.depth

/-- Makes every token from now on the end of input. -/
def forceEnd (s : Scanner) : Scanner := {s with forcedEnd := true}

/-- Goes on in a source that was pushed. One that could not be pushed is reported at the current
token and ends the scan. -/
def enter (s : Scanner) (pushed : Except InputError InputStack) :
    Except InputError Unit × Scanner :=
  match pushed with
  | .ok input => (.ok (), {s with input})
  | .error e => (.error e, s.fail e s.current.pos)

/-- Goes on in a file, until its end. -/
def enterFile (files : FileSystem) (s : Scanner) (path : String) :
    Except InputError Unit × Scanner :=
  s.enter (s.input.pushFile files path)

/-- Goes on in a text, until its end. Without a name it is located where it is entered. -/
def enterBytes (s : Scanner) (name : Option String) (bytes : List UInt8) :
    Except InputError Unit × Scanner :=
  s.enter (s.input.pushBytes name bytes)

/-- Leaves the current source, if there is one. -/
def leave? (s : Scanner) : Option Scanner := s.input.pop?.map ({s with input := ·})

/-! ### The current token -/

/-- The integer of the current token, zero if it has none. -/
def intValue (s : Scanner) : Int := s.current.attr.int?.getD 0

/-- The string of the current token, empty if it has none. -/
def strValue (s : Scanner) : ShortString := s.current.attr.str?.getD .empty

def mapCurrent (f : ShortString → ShortString) (s : Scanner) : Scanner :=
  {s with current := {s.current with attr := s.current.attr.mapStr f}}

/-- Folds the string of the current token to upper case. -/
def toUpper (s : Scanner) : Scanner := s.mapCurrent ShortString.toUpper

/-- Folds the string of the current token to lower case. -/
def toLower (s : Scanner) : Scanner := s.mapCurrent ShortString.toLower

end Scanner
end AsmScan
