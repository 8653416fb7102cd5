import AsmScan.Byte
import AsmScan.Text

/-! Binary search in a table of words.

The keys of a table stand in dictionary order of their bytes. `narrow` halves a
stretch of the table until one key is left, keeping the last one that is not above
the key sought; `search` then looks whether it is that key. -/
namespace AsmScan.SortedTable

/-- The last place in a stretch of the table whose key is not above the one sought, or the first
place of the stretch if all are above it. -/
def narrow (keys : Array (List UInt8)) (key : List UInt8) (first size : Nat) : Nat :=
  if size ≤ 1 then first
  else
    let middle := first + size / 2
    narrow keys key (if key < keys.getD middle [] then first else middle) (size - size / 2)
termination_by size

/-- The place of a key in the table. -/
def search (keys : Array (List UInt8)) (key : List UInt8) : Option Nat :=
  let place := narrow keys key 0 keys.size
  if keys[place]? = some key then some place else none

/-- The bytes of each word. -/
def keys (words : List String) : Array (List UInt8) := (words.map utf8).toArray

/-- The place of a word that may be in either case, in a table of words in upper case. -/
def searchAnyCase (keys : Array (List UInt8)) (word : String) : Option Nat :=
  search keys ((utf8 word).map Byte.toUpper)

end AsmScan.SortedTable
