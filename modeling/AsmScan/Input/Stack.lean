import AsmScan.Input.Frame

/-! The stack of sources being read.

Bytes are read from the top frame only. A frame pushed on the stack is read to its
end before the frame below goes on where it was left. What remains to be
read, bytes and frames, becomes less with every byte read (`remaining_advance_lt`). -/
namespace AsmScan

structure InputStack where
  /-- The top frame first. -/
  frames : List Frame
  /-- Where the frame popped last had come to. -/
  last : Position
deriving DecidableEq

namespace InputStack

def empty : InputStack := ⟨[], .nowhere⟩

def ofFrame (f : Frame) : InputStack := ⟨[f], .nowhere⟩

def depth (s : InputStack) : Nat := s.frames.length
def isEmpty (s : InputStack) : Bool := s.frames.isEmpty
def top? (s : InputStack) : Option Frame := s.frames.head?

/-- Where the top frame stands. -/
def pos (s : InputStack) : Position := (s.top?.map Frame.pos).getD s.last

/-! ### Pushing and popping -/

def push (s : InputStack) (f : Frame) : Except InputError InputStack :=
  if InputError.maxDepth ≤ s.depth then .error .nestingTooDeep
  else .ok {s with frames := f :: s.frames}

/-- Pushes a file. A file that would be nested too deep is not opened. -/
def pushFile (files : FileSystem) (s : InputStack) (path : String) :
    Except InputError InputStack :=
  if InputError.maxDepth ≤ s.depth then .error .nestingTooDeep
  else
    match files path with
    | .error why => .error (.unreadable path why)
    | .ok contents => s.push (.ofFile path contents)

/-- Pushes a text under a name of its own, located from its first byte. Without a name it takes the
position of the stack. -/
def pushBytes (s : InputStack) (name : Option String) (bytes : List UInt8) :
    Except InputError InputStack :=
  match name with
  | some name => s.push (.ofBytes name .start bytes)
  | none => s.push (.ofBytes s.pos.name s.pos.loc bytes)

/-- Leaves the top frame, if there is one. -/
def pop? (s : InputStack) : Option InputStack :=
  match s.frames with
  | [] => none
  | f :: below => some ⟨below, f.pos⟩

/-- Leaves all frames. -/
def clear (s : InputStack) : InputStack :=
  ⟨[], (s.frames.getLast?.map Frame.pos).getD s.last⟩

/-! ### Reading -/

/-- The bytes that the top frame has left. -/
def unread (s : InputStack) : List UInt8 := (s.top?.map Frame.unread).getD []

/-- The byte at which the stack stands, none at the end of the top frame. -/
def peek? (s : InputStack) : Option UInt8 := s.top?.bind Frame.peek?

/-- Changes the top frame, if there is one. -/
def mapTop (f : Frame → Frame) (s : InputStack) : InputStack :=
  {s with frames := s.frames.modifyHead f}

/-- Moves past some bytes, at most to the end of the top frame. -/
def advance (s : InputStack) (count : Nat) : InputStack := s.mapTop (·.advance count)

/-- Moves past one byte. -/
def bump (s : InputStack) : InputStack := s.advance 1

/-- The read failure that the top frame has come to. -/
def failure? (s : InputStack) : Option InputError :=
  s.top?.bind fun f => f.pending?.map (.unreadable f.name)

/-- Forgets the read failure of the top frame. -/
def dropFailure (s : InputStack) : InputStack := s.mapTop ({· with failure := none})

section Top
variable {s : InputStack} {f : Frame} {below : List Frame}

theorem pos_of_frames (h : s.frames = f :: below) : s.pos = f.pos := by
  rw [pos, top?, h]
  rfl

theorem unread_of_frames (h : s.frames = f :: below) : s.unread = f.unread := by
  rw [unread, top?, h]
  rfl

theorem failure?_of_frames (h : s.frames = f :: below) :
    s.failure? = f.pending?.map (.unreadable f.name) := by
  rw [failure?, top?, h]
  rfl

end Top

/-! ### What remains to be read -/

/-- The bytes that remain to be read, and one for each frame. -/
def remaining (s : InputStack) : Nat :=
  s.frames.foldr (fun f below => f.unread.length + 1 + below) 0

theorem remaining_advance_lt (s : InputStack) {count : Nat} (hc : 0 < count)
    (hu : s.unread ≠ []) : (s.advance count).remaining < s.remaining := by
  obtain ⟨frames, last⟩ := s
  cases frames with
  | nil => exact absurd rfl hu
  | cons f below =>
    have : 0 < f.unread.length := List.length_pos_iff.2 hu
    simp only [remaining, advance, mapTop, Frame.advance, List.modifyHead_cons, List.foldr_cons,
      List.length_drop]
    omega

theorem remaining_dropFailure (s : InputStack) : s.dropFailure.remaining = s.remaining := by
  obtain ⟨frames, last⟩ := s
  cases frames <;> rfl

end InputStack

/-! ### Classes of bytes -/

/-- A sorting of what a stack can stand at into classes. -/
structure ByteClasses (κ : Type) where
  /-- The class of an ASCII byte. -/
  ascii : UInt8 → κ
  /-- The class of all bytes above ASCII. -/
  above : κ
  /-- The class of the end of a frame. -/
  atEnd : κ

/-- The class of a byte together with the byte, zero at the end of a frame. -/
def ByteClasses.classify {κ : Type} (classes : ByteClasses κ) : Option UInt8 → κ × UInt8
  | none => (classes.atEnd, 0)
  | some b => (if b < 0x80 then classes.ascii b else classes.above, b)

end AsmScan
