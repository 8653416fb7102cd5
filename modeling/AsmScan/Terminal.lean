/-! What a plain output shows of a text that holds terminal sequences.

A terminal takes an escape character and what follows it for a command, and most
other control characters for one by themselves. An output that has no colours and
no cursor leaves them out (`visible`). -/
namespace AsmScan.Terminal

/-- The controls that set text apart: tab, line feed, form feed and carriage return. -/
def blank (c : Char) : Bool := c = '\t' || c = '\n' || c = '\x0c' || c = '\r'

/-- A character that stands for itself outside sequences. Of the controls of ASCII, blanks do. -/
def shown (c : Char) : Bool := blank c || (' ' ≤ c && c ≠ '\x7f')

/-- A sequence that has begun, by what it waits for. -/
inductive Sequence where
  /-- The escape character stands alone as yet. -/
  | escape
  /-- The escape character and marks that keep the sequence open. -/
  | marked
  /-- A control sequence, opened by `[`. -/
  | control
  /-- A command to the system, opened by `]`. -/
  | system
  /-- The parameters of a device string, opened by `P`. -/
  | device
  /-- A string that is not for the screen. -/
  | string
deriving DecidableEq

/-- The terminator of a string is a single byte, which may be a part of a longer character. -/
def endsString (c : Char) : Bool := (String.utf8EncodeChar c).contains 0x9c

/-- The sequence after one more character, if that does not end it. -/
def Sequence.next (s : Sequence) (c : Char) : Option Sequence :=
  match s with
  | .escape =>
    if c = '[' then some .control
    else if c = ']' then some .system
    else if c = 'P' then some .device
    else if c = 'X' || c = '^' || c = '_' then some .string
    else if '0' ≤ c && c ≤ '~' then none
    else if ' ' ≤ c && c ≤ '/' then some .marked
    else some .escape
  | .marked => if '0' ≤ c && c ≤ '~' then none else some .marked
  | .control => if '@' ≤ c && c ≤ '~' then none else some .control
  | .system => if c = '\x07' then none else some .system
  | .device => if '@' ≤ c && c ≤ '~' then some .string else some .device
  | .string => if endsString c then none else some .string

/-- A blank in such a sequence is shown. The others take it for a part of their own. -/
def Sequence.admitsBlanks : Sequence → Bool
  | .escape | .marked | .control => true
  | .system | .device | .string => false

/-- What a character is read as. -/
inductive Mode where
  /-- Text, which a blank may have brought into a sequence. -/
  | text (within : Option Sequence)
  | sequence (s : Sequence)
deriving DecidableEq

/-- The mode after a character, and whether that is shown. Escape begins a sequence anywhere, and
cancel and substitute end one. A blank in a sequence brings it back to text until the next control,
for good if a character beyond ASCII comes first. -/
def Mode.next (m : Mode) (c : Char) : Mode × Bool :=
  if c = '\x1b' then (.sequence .escape, false)
  else if c = '\x18' || c = '\x1a' then (.text none, false)
  else
    match m with
    | .text within =>
      if c > '\x7f' then (.text none, true)
      else if shown c then (.text within, true)
      else (within.elim (.text none) .sequence, false)
    | .sequence s =>
      if blank c && s.admitsBlanks then (.text (some s), true)
      else ((s.next c).elim (.text none) .sequence, false)

/-- The characters that are shown. -/
def Mode.visible (m : Mode) : List Char → List Char
  | [] => []
  | c :: rest =>
    let (next, kept) := m.next c
    if kept then c :: next.visible rest else next.visible rest

/-- The text as a plain output shows it. -/
def visible (text : String) : String := String.ofList ((Mode.text none).visible text.toList)

end AsmScan.Terminal
