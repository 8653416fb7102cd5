import AsmScan.Charmap
import AsmScan.Config
import AsmScan.Terminal

/-! What the arguments of the command line ask for.

Arguments are read from left to right. A setting takes its value from the same
argument (`--cpu=6502`, `-f=line_cont`, `-fline_cont`) or from the next one. A value
in an argument of its own is kept for the moment (`Pending`): it is looked at when
the next setting or file begins, so that an argument nobody knows is refused before
it. -/
namespace AsmScan.CommandLine

/-- A setting that takes a value. -/
inductive Setting where
  | cpu
  | feature
  | charmap
  | localChar
deriving DecidableEq

/-- A switch that takes none. -/
inductive Switch where
  | quiet
  | version
  | help
deriving DecidableEq

/-- The setting as messages show it. -/
def Setting.label : Setting → String
  | .cpu => "--cpu <CPU>"
  | .feature => "--feature <FEATURES>"
  | .charmap => "--charmap <CHARMAP>"
  | .localChar => "--local-char <LOCAL_CHAR>"

/-- The switch as messages show it. -/
def Switch.label : Switch → String
  | .quiet => "--quiet"
  | .version => "--version"
  | .help => "--help"

/-! ### Requests -/

structure Options where
  config : Config
  charmap : Charmap
  /-- Only messages are wanted. -/
  quiet : Bool
  files : List String
deriving DecidableEq

inductive Request where
  | scan (options : Options)
  | version
  | help
deriving DecidableEq

/-- Why the arguments are refused. -/
inductive UsageError where
  | unexpected (argument : String)
  /-- Something that needs a value has none. -/
  | missingValue (what : String)
  /-- A switch was given a value. -/
  | needlessValue (value : String) (switch : Switch)
  | invalidValue (value : String) (setting : Setting) (why : String)
  | repeated (what : String)
  | noFiles
  | badLocalChar (c : Char)
deriving DecidableEq

/-- The end of a refusal, then where help is. The name of the switch stands by itself, so that no
sequence which the reason leaves open can hide it. -/
def withHint (reason : String) : String :=
  Terminal.visible s!"{reason}\n\nFor more information, try '" ++ s!"{Switch.help.label}'."

/-- What is wrong. Arguments are shown as on a plain output, and each by itself, so that a sequence
which one leaves open ends with it. A character for local labels is named as it is. -/
instance : ToString UsageError where
  toString
    | .unexpected argument =>
      s!"error: unexpected argument '{Terminal.visible argument}" ++ withHint "' found"
    | .missingValue what =>
      s!"error: a value is required for '{what}" ++ withHint "' but none was supplied"
    | .needlessValue value switch =>
      s!"error: unexpected value '{Terminal.visible value}' for '{switch.label}"
        ++ withHint "' found; no more were expected"
    | .invalidValue value setting why =>
      s!"error: invalid value '{Terminal.visible value}' for '{setting.label}"
        ++ withHint s!"': {why}"
    | .repeated what =>
      s!"error: the argument '{what}" ++ withHint "' cannot be used multiple times"
    | .noFiles =>
      withHint "error: the following required arguments were not provided:\n  <FILES>..."
    | .badLocalChar c => s!"error: {LocalChar.refusal c}"

/-! ### Reading arguments -/

/-- What was read but not looked at yet. -/
inductive Pending where
  | setting (s : Setting) (value : Option String)
  | files (names : List String)

/-- What the arguments read so far come to. -/
structure Reading where
  cpu : Option Cpu := none
  features : List Feature := []
  charmap : Option Charmap := none
  localChar : Option Char := none
  quiet : Bool := false
  files : List String := []
  pending : Option Pending := none

namespace Reading

/-- Gives a setting its value. Features add up; the other settings take one value only. -/
def give (r : Reading) (s : Setting) (value : String) : Except UsageError Reading :=
  let invalid (why : String) : Except UsageError Reading := .error (.invalidValue value s why)
  let again : Except UsageError Reading := .error (.repeated s.label)
  match s with
  | .cpu =>
    if r.cpu.isSome then again
    else
      match Cpu.ofName? value with
      | some cpu => .ok {r with cpu}
      | none => invalid s!"unknown processor '{value}'"
  | .feature =>
    match Feature.ofName? value with
    | some f => .ok {r with features := r.features ++ [f]}
    | none => invalid s!"unknown feature '{value}'"
  | .charmap =>
    if r.charmap.isSome then again
    else
      match Charmap.ofName? value with
      | some charmap => .ok {r with charmap}
      | none => invalid s!"unknown character map '{value}'"
  | .localChar =>
    if r.localChar.isSome then again
    else
      match value.toList with
      | [c] => .ok {r with localChar := c}
      | [] => invalid "cannot parse char from empty string"
      | _ => invalid "too many characters in string"

/-- Looks at what was read. -/
def settle (r : Reading) : Except UsageError Reading :=
  match r.pending with
  | none => .ok r
  | some (.setting s none) => .error (.missingValue s.label)
  | some (.setting s (some value)) => {r with pending := none}.give s value
  | some (.files names) =>
    if names.contains "" then .error (.missingValue "<FILES>...")
    else .ok {r with pending := none, files := r.files ++ names}

/-- Begins a setting, with its value if that stands in the same argument. -/
def setting (r : Reading) (s : Setting) (attached : Option String) : Except UsageError Reading := do
  let r ← r.settle
  match attached with
  | some value => r.give s value
  | none => .ok {r with pending := some (.setting s none)}

/-- Adds an argument that is no option: the value of a setting that waits for it, or a file. -/
def add (r : Reading) (value : String) : Except UsageError Reading :=
  match r.pending with
  | some (.setting s none) => .ok {r with pending := some (.setting s (some value))}
  | some (.files names) => .ok {r with pending := some (.files (names ++ [value]))}
  | _ => do .ok {← r.settle with pending := some (.files [value])}

/-- Adds arguments of which none is an option. -/
def addFiles (r : Reading) (names : List String) : Except UsageError Reading := do
  let r ← r.settle
  {r with pending := some (.files names)}.settle

/-- Turns a switch on. All but one ask for something else than a scan. -/
def switch (r : Reading) (s : Switch) : Except UsageError (Reading ⊕ Request) := do
  let r ← r.settle
  match s with
  | .quiet => if r.quiet then .error (.repeated s.label) else .ok (.inl {r with quiet := true})
  | .version => .ok (.inr .version)
  | .help => .ok (.inr .help)

/-- The options that all arguments come to. -/
def finish (r : Reading) : Except UsageError Request := do
  let r ← r.settle
  if r.files.isEmpty then .error .noFiles
  else
    let c := r.localChar.getD '@'
    match LocalChar.ofChar? c with
    | none => .error (.badLocalChar c)
    | some localChar =>
      let features := r.features.foldl (fun fs f => fs.set f true) {}
      .ok <| .scan
        { config := {cpu := r.cpu.getD default, features, localChar, echo := true}
          charmap := r.charmap.getD default
          quiet := r.quiet
          files := r.files }

end Reading

/-! ### Arguments -/

/-- An option by its long name. -/
def long? : String → Option (Setting ⊕ Switch)
  | "cpu" => some (.inl .cpu)
  | "feature" => some (.inl .feature)
  | "charmap" => some (.inl .charmap)
  | "local-char" => some (.inl .localChar)
  | "quiet" => some (.inr .quiet)
  | "version" => some (.inr .version)
  | "help" => some (.inr .help)
  | _ => none

/-- An option by its letter. -/
def short? : Char → Option (Setting ⊕ Switch)
  | 'f' => some (.inl .feature)
  | 'q' => some (.inr .quiet)
  | 'V' => some (.inr .version)
  | 'h' => some (.inr .help)
  | _ => none

/-- A long option, with what stands after its equals sign. -/
def readLong (r : Reading) (text : List Char) : Except UsageError (Reading ⊕ Request) :=
  let name := String.ofList (text.takeWhile (· != '='))
  let attached : Option String :=
    match text.dropWhile (· != '=') with
    | [] => none
    | _ :: value => some (String.ofList value)
  match long? name, attached with
  | none, _ => .error (.unexpected s!"--{name}")
  | some (.inl s), _ => (r.setting s attached).map .inl
  | some (.inr s), some value => .error (.needlessValue value s)
  | some (.inr s), none => r.switch s

/-- The letters after a single dash. The first that takes a value takes the rest for it. -/
def readShort (r : Reading) : List Char → Except UsageError (Reading ⊕ Request)
  | [] => .ok (.inl r)
  | c :: rest => do
    match short? c with
    | none => .error (.unexpected s!"-{c}")
    | some (.inl s) =>
      let attached : Option String :=
        match rest with
        | [] => none
        | '=' :: value => some (String.ofList value)
        | value => some (String.ofList value)
      (r.setting s attached).map .inl
    | some (.inr s) =>
      match ← r.switch s with
      | .inl r => readShort r rest
      | .inr request => .ok (.inr request)

/-- One argument. A lone dash is no option. -/
def readArgument (r : Reading) (argument : String) : Except UsageError (Reading ⊕ Request) :=
  match argument.toList with
  | '-' :: '-' :: text => readLong r text
  | '-' :: c :: text => readShort r (c :: text)
  | _ => (r.add argument).map .inl

/-- The arguments after those read. Two dashes alone end the options. -/
def readArguments (r : Reading) : List String → Except UsageError Request
  | [] => r.finish
  | "--" :: names => do (← r.addFiles names).finish
  | argument :: rest => do
    match ← readArgument r argument with
    | .inl r => readArguments r rest
    | .inr request => .ok request

/-- What the arguments ask for. -/
def Request.ofArguments (arguments : List String) : Except UsageError Request :=
  readArguments {} arguments

end AsmScan.CommandLine
