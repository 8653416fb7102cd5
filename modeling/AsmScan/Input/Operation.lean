import AsmScan.Input.Stack

/-! What is done with a stack, one operation after the other.

An operation looks at the byte at which the stack stands, or moves past it, or pushes
or pops a frame. It changes the stack and gives a reply. -/
namespace AsmScan.InputStack

/-- Takes the read failure that the top frame has come to. -/
def takeFailure (s : InputStack) : Option InputError × InputStack :=
  match s.failure? with
  | none => (none, s)
  | some e => (some e, s.dropFailure)

/-- Something that is done with a stack, where bytes are sorted into the classes `κ`. -/
inductive Operation (κ : Type) where
  | push (f : Frame)
  | pushFile (path : String)
  | pushBytes (name : Option String) (bytes : List UInt8)
  | pop
  | clear
  | peek
  | classify (classes : ByteClasses κ)
  | bump
  | pos
  | takeFailure

/-- What an operation has to say. -/
inductive Reply (κ : Type) where
  /-- Nothing to say. -/
  | done
  /-- The frame was not pushed. -/
  | refused (e : InputError)
  /-- Whether there was a frame to pop. -/
  | popped (was : Bool)
  | byte (b : Option UInt8)
  | sorted (kind : κ) (b : UInt8)
  | standing (p : Position)
  | failure (e : Option InputError)

/-- The reply to pushing a frame. -/
def pushing {κ : Type} (s : InputStack) : Except InputError InputStack → Reply κ × InputStack
  | .ok s => (.done, s)
  | .error e => (.refused e, s)

/-- The reply to an operation, and the stack after it. -/
def perform {κ : Type} (files : FileSystem) (s : InputStack) : Operation κ → Reply κ × InputStack
  | .push f => s.pushing (s.push f)
  | .pushFile path => s.pushing (s.pushFile files path)
  | .pushBytes name bytes => s.pushing (s.pushBytes name bytes)
  | .pop =>
    match s.pop? with
    | none => (.popped false, s)
    | some s => (.popped true, s)
  | .clear => (.done, s.clear)
  | .peek => (.byte s.peek?, s)
  | .classify classes =>
    let (kind, b) := classes.classify s.peek?
    (.sorted kind b, s)
  | .bump => (.done, s.bump)
  | .pos => (.standing s.pos, s)
  | .takeFailure =>
    let (e, s) := s.takeFailure
    (.failure e, s)

/-- The stack after a list of operations. -/
def performAll {κ : Type} (files : FileSystem) (s : InputStack) (operations : List (Operation κ)) :
    InputStack :=
  operations.foldl (fun s o => (s.perform files o).2) s

end AsmScan.InputStack
