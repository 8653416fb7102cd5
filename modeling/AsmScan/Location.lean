import AsmScan.Byte

/-! Where in the source something stands.

A location is a line and a column, both counted from one; zero stands for unknown.
A position is a location in a source that has a name. -/
namespace AsmScan

structure Location where
  line : Nat
  column : Nat
deriving DecidableEq

namespace Location

def unknown : Location := ⟨0, 0⟩

/-- The first byte of a source. -/
def start : Location := ⟨1, 1⟩

/-- The location after a byte: a line feed begins the next line. -/
def advance (l : Location) (b : UInt8) : Location :=
  if b = Byte.lineFeed then ⟨l.line + 1, 1⟩ else {l with column := l.column + 1}

/-- The location past some bytes. -/
def past (l : Location) (bytes : List UInt8) : Location := bytes.foldl advance l

/-- The location some bytes further on the same line. -/
def right (l : Location) (count : Nat) : Location := {l with column := l.column + count}

/-- An unknown part is left out. -/
instance : ToString Location where
  toString l :=
    match l.line, l.column with
    | 0, 0 => ""
    | line, 0 => toString line
    | line, column => s!"{line}:{column}"

/-- By line, then by column. -/
instance : Ord Location where
  compare l m := (compare l.line m.line).then (compare l.column m.column)

end Location

/-- A location in a named source. -/
structure Position where
  name : String
  loc : Location
deriving DecidableEq

namespace Position

/-- No source at all. -/
def nowhere : Position := ⟨"", .unknown⟩

instance : ToString Position where
  toString p := if p.loc = .unknown then p.name else s!"{p.name}:{p.loc}"

end Position
end AsmScan
