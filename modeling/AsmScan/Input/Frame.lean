import AsmScan.Input.File
import AsmScan.Location

/-! Frames: sources that are being read.

A frame holds the bytes not yet read and the location of the first of them.
`advance` moves both together, so the location is always that of the byte at which
the frame stands. -/
namespace AsmScan

structure Frame where
  name : String
  loc : Location
  unread : List UInt8
  isFile : Bool
  /-- What stops the reading after the unread bytes, if not the end. -/
  failure : Option ReadFailure
deriving DecidableEq

namespace Frame

/-- A text in memory, located from somewhere in a named source. -/
def ofBytes (name : String) (loc : Location) (bytes : List UInt8) : Frame :=
  ⟨name, loc, bytes, false, none⟩

/-- A file from its beginning. -/
def ofFile (name : String) (contents : Contents) : Frame :=
  ⟨name, .start, contents.bytes, true, contents.failure⟩

def pos (f : Frame) : Position := ⟨f.name, f.loc⟩

/-- The byte at which the frame stands, none at its end. -/
def peek? (f : Frame) : Option UInt8 := f.unread.head?

/-- Moves past some bytes, at most to the end. -/
def advance (f : Frame) (count : Nat) : Frame :=
  {f with loc := f.loc.past (f.unread.take count), unread := f.unread.drop count}

/-- Moves past one byte. -/
def bump (f : Frame) : Frame := f.advance 1

/-- The failure that has been reached. -/
def pending? (f : Frame) : Option ReadFailure := if f.unread.isEmpty then f.failure else none

end Frame
end AsmScan
