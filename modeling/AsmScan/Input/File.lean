/-! Files, as far as a scan sees them.

To open a file succeeds or fails; reading it yields bytes, and may fail after some
of them. A directory can be opened, but its first read fails. -/
namespace AsmScan

/-- Why the system did not open or read a file. -/
structure ReadFailure where
  reason : String
  code : Nat
deriving DecidableEq

namespace ReadFailure

instance : ToString ReadFailure := ⟨fun f => s!"{f.reason} (os error {f.code})"⟩

def notFound : ReadFailure := ⟨"No such file or directory", 2⟩
def isDirectory : ReadFailure := ⟨"Is a directory", 21⟩

end ReadFailure

/-- What an opened file yields: bytes, and what stopped the reading if not the end. -/
structure Contents where
  bytes : List UInt8
  failure : Option ReadFailure := none
deriving DecidableEq

/-- What an opened directory yields. -/
def Contents.directory : Contents := ⟨[], some .isDirectory⟩

/-- What comes of opening a file by its name. -/
abbrev FileSystem := String → Except ReadFailure Contents

/-- Why a source was not entered, or not read to its end. -/
inductive InputError where
  | unreadable (name : String) (why : ReadFailure)
  | nestingTooDeep
deriving DecidableEq

namespace InputError

/-- How many sources can be nested. -/
def maxDepth : Nat := 254

instance : ToString InputError where
  toString
    | .unreadable name why => s!"cannot read '{name}': {why}"
    | .nestingTooDeep => s!"too many nested input sources (limit is {maxDepth})"

end InputError
end AsmScan
