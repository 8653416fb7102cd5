import AsmScan.CommandLine.Request
import AsmScan.Scanner.Next

/-! What the program prints.

A run scans each file to its end and prints its tokens in a table, each message
ahead of the row of the token that was being looked for. It fails if a file cannot
be opened or has an error; the other files are scanned all the same. -/
namespace AsmScan.CommandLine

/-- A line printed on one of the two outputs. -/
inductive Printed where
  | out (line : String)
  | err (line : String)
deriving DecidableEq

/-- A line as it is written on the first output, nothing if it belongs to the other. -/
def Printed.stdout : Printed → String
  | .out line => line ++ "\n"
  | .err _ => ""

/-- A line as it is written on the second output, nothing if it belongs to the other. -/
def Printed.stderr : Printed → String
  | .out _ => ""
  | .err line => line ++ "\n"

/-! ### The table of tokens -/

def tableHead : List String :=
  [ "╭──────┬─────┬────────────┬────┬──────────────────────╮",
    "│ LINE │  COL │ TOKEN      │ WS │ VALUE                │",
    "╞══════╪═════╪════════════╪════╪══════════════════════╡" ]

def tableFoot : String := "╰──────┴─────┴────────────┴────┴──────────────────────╯"

/-- The row of a token. An attribute too long for its column is cut. -/
def tableRow (o : Occurrence) : String :=
  let line := Align.right.pad 4 (toString o.pos.loc.line)
  let column := Align.right.pad 3 (toString o.pos.loc.column)
  let token := Align.left.pad 10 o.token.name
  let space := Align.left.pad 2 (if o.spaced then "ws" else "")
  let value := Align.left.pad 20 (cut (some 20) (toString o.attr))
  s!"│ {line} │ {column} │ {token} │ {space} │ {value} │"

/-! ### Runs -/

/-- What a run has come to. -/
structure Outcome where
  printed : List Printed
  failed : Bool
deriving DecidableEq

/-- The lines of one turn of the scan. -/
def printTurn (o : Options) (t : Scanner.Turn) : List Printed :=
  (if o.config.echo then t.reported.map fun m => .err (toString m) else []) ++
    if o.quiet then [] else [.out (tableRow t.found)]

/-- Scans one file. -/
def runFile (files : FileSystem) (o : Options) (path : String) : Outcome :=
  match Scanner.ofFile files o.config path with
  | .error e => ⟨[.err s!"{Severity.fatal.label}{e}"], true⟩
  | .ok scanner =>
    let (turns, last) := {scanner with charmap := o.charmap}.turns
    let body := turns.flatMap (printTurn o)
    let table :=
      if o.quiet then body
      else .out s!"[{path}]" :: tableHead.map .out ++ body ++ [.out tableFoot]
    ⟨table, 0 < last.diagnostics.errorCount⟩

/-- Scans the files one after the other. -/
def runFiles (files : FileSystem) (o : Options) : Outcome :=
  let outcomes := o.files.map (runFile files o)
  ⟨outcomes.flatMap Outcome.printed, outcomes.any Outcome.failed⟩

/-! ### The program -/

def version : String := "ras65 0.0.0"

def usage : List String :=
  [ "Scans 6502-family assembly source files and prints their tokens",
    "",
    "Usage: ras65 [OPTIONS] <FILES>...",
    "",
    "Arguments:",
    "  <FILES>...  Source files",
    "",
    "Options:",
    "      --cpu <CPU>                Target processor: 6502, 65sc02, 65c02, or 65816",
    "  -f, --feature <FEATURES>       Enable a syntax feature. May be repeated",
    "      --charmap <CHARMAP>        Character map for character constants: identity or petscii",
    "      --local-char <LOCAL_CHAR>  Character that introduces a cheap local label: @ or ?",
    "  -q, --quiet                    Print diagnostics only",
    "  -h, --help                     Print help",
    "  -V, --version                  Print version" ]

/-- What the program prints and the status with which it ends. -/
def run (files : FileSystem) (arguments : List String) : List Printed × Nat :=
  match Request.ofArguments arguments with
  | .error e => ([.err (toString e)], 2)
  | .ok .version => ([.out version], 0)
  | .ok .help => (usage.map .out, 0)
  | .ok (.scan o) =>
    let outcome := runFiles files o
    (outcome.printed, if outcome.failed then 1 else 0)

end AsmScan.CommandLine
