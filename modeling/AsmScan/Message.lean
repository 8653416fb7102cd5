import AsmScan.Location

/-! Messages about the source, and the list of those reported so far. -/
namespace AsmScan

inductive Severity where
  | normal
  | warning
  | error
  | fatal
deriving DecidableEq

namespace Severity

def rank : Severity → Nat
  | .normal => 0
  | .warning => 1
  | .error => 2
  | .fatal => 3

/-- What a message of the severity says before its text. -/
def label : Severity → String
  | .normal => ""
  | .warning => "warning: "
  | .error => "error: "
  | .fatal => "fatal: "

/-- The terminal's code for the colour of the label, if it has one. -/
def colour? : Severity → Option String
  | .normal => none
  | .warning => some "1;33"
  | .error => some "1;31"
  | .fatal => some "1;91"

/-- The label in its colour. -/
def painted (s : Severity) : String :=
  match s.colour? with
  | none => s.label
  | some colour => s!"\x1b[{colour}m{s.label}\x1b[0m"

end Severity

/-- What kind of problem a message is about. -/
inductive ProblemKind where
  /-- A source cannot be opened or read. -/
  | unreadable
  /-- Too many sources are nested. -/
  | nestingTooDeep
  /-- A byte begins no token, or an escape does not exist. -/
  | invalidCharacter
  /-- A line ends inside quotes. -/
  | unterminatedLiteral
  /-- A name or string does not fit. -/
  | literalTooLong
  /-- A number does not fit. -/
  | integerOverflow
  /-- The size of an address was expected. -/
  | invalidAddressSize
  /-- A dotted word is no directive. -/
  | invalidDirective
  /-- A number has a digit that its base lacks, or none. -/
  | invalidNumber
  /-- A character constant does not hold one character. -/
  | invalidCharConstant
deriving DecidableEq

/-- Where a source cannot be read on, the scan ends; all other problems leave it running. -/
def ProblemKind.severity : ProblemKind → Severity
  | .unreadable | .nestingTooDeep => .fatal
  | _ => .error

structure Message where
  severity : Severity
  kind : ProblemKind
  pos : Position
  text : String
deriving DecidableEq

namespace Message

/-- A message of the severity that its kind has by default. -/
def ofKind (kind : ProblemKind) (pos : Position) (text : String) : Message :=
  ⟨kind.severity, kind, pos, text⟩

instance : ToString Message := ⟨fun m => s!"{m.pos}: {m.severity.label}{m.text}"⟩

/-- The message as a terminal in colour shows it. -/
def painted (m : Message) : String := s!"{m.pos}: {m.severity.painted}{m.text}"

/-- Whether the message is about an error or worse. -/
def isError (m : Message) : Bool := Severity.error.rank ≤ m.severity.rank

def isFatal (m : Message) : Bool := m.severity = .fatal

end Message

/-- The messages reported so far, the oldest first. -/
structure Diagnostics where
  messages : Array Message
deriving DecidableEq

namespace Diagnostics

def empty : Diagnostics := ⟨#[]⟩

def report (d : Diagnostics) (m : Message) : Diagnostics := ⟨d.messages.push m⟩

def count (d : Diagnostics) : Nat := d.messages.size
def errorCount (d : Diagnostics) : Nat := d.messages.countP Message.isError
def hasFatal (d : Diagnostics) : Bool := d.messages.any Message.isFatal
def kinds (d : Diagnostics) : List ProblemKind := (d.messages.map Message.kind).toList

/-- The messages reported after the first so many. -/
def since (d : Diagnostics) (count : Nat) : List Message := (d.messages.extract count).toList

end Diagnostics
end AsmScan
