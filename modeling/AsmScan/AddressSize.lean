import AsmScan.SortedTable
import AsmScan.Token

/-! Sizes of addresses, and how source text asks for one. -/
namespace AsmScan

inductive AddressSize where
  /-- No size was asked for. -/
  | unspecified
  | zeropage
  | absolute
  | far
  | long
deriving DecidableEq

namespace AddressSize

instance : Inhabited AddressSize := ⟨.unspecified⟩

def all : List AddressSize := [.unspecified, .zeropage, .absolute, .far, .long]

/-- How many bytes an address takes, zero if no size was asked for. -/
def byteCount : AddressSize → Nat
  | .unspecified => 0
  | .zeropage => 1
  | .absolute => 2
  | .far => 3
  | .long => 4

def name : AddressSize → String
  | .unspecified => "default"
  | .zeropage => "zeropage"
  | .absolute => "absolute"
  | .far => "far"
  | .long => "long"

/-- The words that ask for a size, in dictionary order. -/
def words : List (String × AddressSize) :=
  [("ABS", .absolute),
   ("ABSOLUTE", .absolute),
   ("DIRECT", .zeropage),
   ("DWORD", .long),
   ("FAR", .far),
   ("LONG", .far),
   ("NEAR", .absolute),
   ("ZEROPAGE", .zeropage),
   ("ZP", .zeropage)]

/-- The table that the words are looked up in. -/
def keys : Array (List UInt8) := SortedTable.keys (words.map Prod.fst)

/-- The size that stands at a place of the table. -/
def atPlace? (place : Nat) : Option AddressSize := words[place]?.map Prod.snd

/-- The size that an override token asks for. -/
def ofOverride? : Token → Option AddressSize
  | .overrideZeropage => some .zeropage
  | .overrideAbsolute => some .absolute
  | .overrideFar => some .far
  | _ => none

end AddressSize
end AsmScan
