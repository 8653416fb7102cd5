import AsmScan.Byte
import AsmScan.Text

/-! Short strings: at most 255 bytes.

Names and string constants are kept as short strings. A text that is longer is cut
to its first 255 bytes (`truncate`), and `append` takes as much as there is room for. -/
namespace AsmScan

/-- The most bytes a short string holds. -/
def ShortString.maxLength : Nat := 255

structure ShortString where
  bytes : List UInt8
  length_le : bytes.length ≤ ShortString.maxLength
deriving DecidableEq

namespace ShortString

def empty : ShortString := ⟨[], Nat.zero_le _⟩

/-- The bytes as a short string, if there are not too many. -/
def ofBytes? (bytes : List UInt8) : Option ShortString :=
  if h : bytes.length ≤ maxLength then some ⟨bytes, h⟩ else none

/-- The first bytes of a text, as many as fit. -/
def truncate (bytes : List UInt8) : ShortString :=
  ⟨bytes.take maxLength, List.length_take_le ..⟩

/-- A text that is short enough is not cut. -/
theorem truncate_of_length_le {bytes : List UInt8} (h : bytes.length ≤ maxLength) :
    truncate bytes = ⟨bytes, h⟩ := by
  simp only [truncate, List.take_of_length_le h]

def length (s : ShortString) : Nat := s.bytes.length
def isEmpty (s : ShortString) : Bool := s.bytes.isEmpty
def isFull (s : ShortString) : Bool := maxLength ≤ s.length

/-- Adds bytes at the end until the string is full. -/
def append (s : ShortString) (bytes : List UInt8) : ShortString := truncate (s.bytes ++ bytes)

def toUpper (s : ShortString) : ShortString :=
  ⟨s.bytes.map Byte.toUpper, by simpa using s.length_le⟩

@[simp] theorem bytes_toUpper (s : ShortString) : s.toUpper.bytes = s.bytes.map Byte.toUpper := rfl

def toLower (s : ShortString) : ShortString :=
  ⟨s.bytes.map Byte.toLower, by simpa using s.length_le⟩

/-- Shown one character a byte. -/
instance : ToString ShortString := ⟨fun s => latin1 s.bytes⟩

/-- Whether the string is what a text looks like in a file. -/
def spells (s : ShortString) (text : String) : Bool := s.bytes == utf8 text

/-- How the string stands to some bytes in dictionary order. -/
def order (s : ShortString) (bytes : List UInt8) : Ordering := compare s.bytes bytes

end ShortString
end AsmScan
