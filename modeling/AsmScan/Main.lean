import AsmScan.CommandLine.Run

/-! The program: reads the files that its arguments name, and prints what `run` says. -/
namespace AsmScan

open CommandLine

/-- A failure to open or read a file, by the number that the system gives it. -/
def readFailure (code : Nat) : ReadFailure :=
  match code with
  | 2 => .notFound
  | 13 => ⟨"Permission denied", 13⟩
  | 21 => .isDirectory
  | _ => ⟨"Input/output error", code⟩

/-- The number that the system gives an error. -/
def errorCode : IO.Error → Nat
  | .noFileOrDirectory .. => 2
  | .permissionDenied .. => 13
  | .inappropriateType .. => 21
  | _ => 5

/-- Opens a file and reads it to its end. -/
def readContents (path : String) : IO (Except ReadFailure Contents) := do
  match ← (IO.FS.readBinFile path).toBaseIO with
  | .ok bytes => return .ok ⟨bytes.data.toList, none⟩
  | .error e =>
    let failure := readFailure (errorCode e)
    return if failure = .isDirectory then .ok .directory else .error failure

end AsmScan

open AsmScan CommandLine in
def main (arguments : List String) : IO UInt32 := do
  let names :=
    match Request.ofArguments arguments with
    | .ok (.scan o) => o.files
    | _ => []
  let read ← names.mapM fun name => return (name, ← readContents name)
  let (printed, status) := run (fun name => (read.lookup name).getD (.error .notFound)) arguments
  for line in printed do
    match line with
    | .out line => IO.println line
    | .err line => IO.eprintln line
  return status.toUInt32
