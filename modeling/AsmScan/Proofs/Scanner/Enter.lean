import AsmScan.Proofs.Scanner.Alike
import AsmScan.Proofs.Scanner.Frame
import AsmScan.Scanner.Session

/-! The enter theorem.

A source that is entered is read as if it stood alone, and then the scan resumes the
sources below at the very byte where they were left. `enter_composes` says what the
calls are, whatever the sources below hold: first those of the source alone, up to
its end of input. Then, if the source is a file and its last line has no end yet, one
separator that stands at its end. Then the calls that would have been made without
the source, only that the token before is the one found last by now.

A source leaves a trace in one more place. The call in which it ends may have passed
something over already, or have reported something, and no token of the source is
left to carry that: it goes to the turn in which that call finds its token. -/
namespace AsmScan.Scanner

/-! ### What is compared -/

/-- The frame that an operation enters. -/
inductive Enters (files : FileSystem) (s : Scanner) : Operation → Frame → Prop where
  | file {path : String} {contents : Contents} (h : files path = .ok contents) :
      Enters files s (.enterFile path) (.ofFile path contents)
  | named {name : String} {bytes : List UInt8} :
      Enters files s (.enterBytes (some name) bytes) (.ofBytes name .start bytes)
  | here {bytes : List UInt8} :
      Enters files s (.enterBytes none bytes) (.ofBytes s.input.pos.name s.input.pos.loc bytes)

/-- The scanner with a frame as its only source. -/
def alone (s : Scanner) (f : Frame) : Scanner :=
  {s with input := .ofFrame f, diagnostics := .empty}

/-- The scanner with a frame on top of its sources. -/
def withFrame (s : Scanner) (f : Frame) : Scanner :=
  {s with input := {s.input with frames := f :: s.input.frames}}

/-- The scanner as if a token had been the last one. -/
def withPrevious (s : Scanner) (t : Token) : Scanner :=
  {s with current := {s.current with token := t}}

/-- The token found last, once some calls were made. -/
def lastToken (s : Scanner) (calls : List Turn) : Token :=
  ((calls.getLast?.map Turn.found).getD s.current).token

/-- Whether the end of a frame also ends a line, after some calls. -/
def endsLine (s : Scanner) (f : Frame) (calls : List Turn) : Bool :=
  f.isFile && !(s.lastToken calls = .initial || s.lastToken calls = .separator)

/-- The calls of a scanner that has a frame entered are those of the frame alone, which are `inside`
up to the call `ended` that finds its end, and then those without the frame. -/
structure Composes (s entered : Scanner) (f : Frame) (inside : List Turn) (ended : Turn) :
    Prop where
  alone : (s.alone f).turns.1 = inside ++ [ended]
  ended_found : ended.found = ⟨.eof, .none, ended.found.spaced, f.pos.past f.unread⟩
  /-- A file ends its last line before the sources below are resumed. -/
  line (h : s.endsLine f inside = true) (n : Nat) :
    entered.calls (inside.length + (n + 1)) =
        inside ++ ⟨ended.reported, ⟨.separator, .none, ended.found.spaced, f.pos.past f.unread⟩⟩ ::
          (s.withPrevious .separator).calls n ∧
      (entered.after (inside.length + (n + 1))).Alike ((s.withPrevious .separator).after n)
  /-- Otherwise the call that comes to the end of the frame goes on below it. -/
  onward (h : s.endsLine f inside = false) (n : Nat) :
    entered.calls (inside.length + (n + 1)) =
        inside ++ ((s.withPrevious (s.lastToken inside)).calls (n + 1)).modifyHead
          (.led ended.found.spaced ended.reported) ∧
      (entered.after (inside.length + (n + 1))).Alike
        ((s.withPrevious (s.lastToken inside)).after (n + 1))

/-! ### Entering -/

/-- A source is entered unless too many are nested. -/
theorem perform_enters {files : FileSystem} {s : Scanner} {o : Operation} {f : Frame}
    (h : Enters files s o f) (hdepth : s.depth ≤ 253) : s.perform files o = (.done, s.withFrame f) := by
  have hroom : ¬ InputError.maxDepth ≤ s.input.depth :=
    Nat.not_le_of_lt (Nat.lt_succ_of_le hdepth)
  cases h with
  | file h =>
    simp only [perform, enterFile, InputStack.pushFile, InputStack.push, hroom, if_false, h]
    rfl
  | named =>
    simp only [perform, enterBytes, InputStack.pushBytes, InputStack.push, hroom, if_false]
    rfl
  | here =>
    simp only [perform, enterBytes, InputStack.pushBytes, InputStack.push, hroom, if_false]
    rfl

section Entered
variable {s : Scanner} {f : Frame}

/-- With a frame on top, its chunks lie ahead. -/
theorem ahead_withFrame (hforced : s.forcedEnd = false) :
    (s.withFrame f).Ahead ((s.alone f).reading false []) (chunks s.config s.charmap f.unread) :=
  ⟨hforced, rfl, rfl⟩

/-- What the chunks of a frame leave decides whether its end also ends a line. -/
theorem endsLine_eq {r : Reading} (hr : r.current = s.current) (ks : List Chunk) :
    s.endsLine f (r.turns ks) = (f.isFile && !(r.after ks).atLineStart) := by
  rw [endsLine, lastToken, Reading.atLineStart, Reading.current_after, hr]

/-- Below a frame that was left, the scan goes on as without it. -/
theorem alike_left (hs : s.input.frames ≠ []) (last : Position) (o : Occurrence)
    (d : Diagnostics) :
    Alike {s with input := ⟨s.input.frames, last⟩, current := o, diagnostics := d}
      (s.withPrevious o.token) :=
  ⟨rfl, hs, rfl, rfl, rfl, rfl⟩

theorem composes_withFrame (hforced : s.forcedEnd = false) (hs : s.input.frames ≠ [])
    (hread : f.failure = none) :
    ∃ inside ended, Composes s (s.withFrame f) f inside ended := by
  let r := (s.alone f).reading false []
  let ks := chunks s.config s.charmap f.unread
  let left := (s.withFrame f).readTo r ks
  obtain ⟨g, below, hbelow⟩ := List.exists_cons_of_ne_nil hs
  have hahead : (s.withFrame f).Ahead r (ks ++ []) := by
    rw [List.append_nil]
    exact ahead_withFrame hforced
  have hpos : (r.after ks).pos = f.pos.past f.unread := by
    rw [Reading.pos_after, flatMap_chunks]
    rfl
  have hlast : (r.after ks).current.token = s.lastToken (r.turns ks) := by
    rw [lastToken, Reading.current_after]
    rfl
  have hframes : left.input.frames = f.advance (ks.flatMap Chunk.bytes).length :: g :: below := by
    rw [← hbelow]
    exact frames_readTo rfl r ks
  have hstep := hahead.after.step_covering hframes hread
  rw [Frame.isFile_advance] at hstep
  have hcalls (n : Nat) : (s.withFrame f).calls ((r.turns ks).length + (n + 1)) =
      r.turns ks ++ left.callsFrom (r.after ks).spaced (r.after ks).reported (n + 1) := by
    rw [calls_eq_callsFrom]
    exact hahead.callsFrom_append (n + 1)
  have hafter (n : Nat) : (s.withFrame f).after ((r.turns ks).length + (n + 1)) =
      left.afterFrom (r.after ks).spaced (n + 1) := by
    rw [after_eq_afterFrom]
    exact hahead.afterFrom_append n
  have halike (o : Occurrence) (p : Position) :
      Alike {left with input := ⟨g :: below, p⟩, current := o} (s.withPrevious o.token) := by
    rw [← hbelow]
    exact alike_left hs p o _
  refine ⟨r.turns ks, (r.after ks).ended, turns_alone hforced rfl hread, ?_, ?_, ?_⟩
  · rw [Reading.ended, hpos]
  · intro hline n
    rw [endsLine_eq rfl] at hline
    rw [if_pos hline, hpos] at hstep
    rw [hcalls, hafter, callsFrom_found hstep (Diagnostics.add_nil _).symm,
      afterFrom_found hstep, List.append_nil, (halike _ _).calls_eq]
    exact ⟨rfl, (halike _ _).after n⟩
  · intro hline n
    rw [endsLine_eq rfl] at hline
    rw [if_neg (ne_true_of_eq_false hline)] at hstep
    have halike := halike (r.after ks).current (f.advance (ks.flatMap Chunk.bytes).length).pos
    rw [hcalls, hafter, callsFrom_onward hstep (Diagnostics.add_nil _).symm,
      afterFrom_onward hstep, List.append_nil, ← hlast]
    exact ⟨congrArg _ (halike.callsFrom_eq _ _ _), halike.afterFrom _ _⟩

end Entered

/-- **A source that is entered is read as if it stood alone**, and then the sources below are resumed
where they were left. -/
theorem enter_composes (files : FileSystem) {s : Scanner} {o : Operation} {f : Frame}
    (hforced : s.forcedEnd = false) (hdepth : 1 ≤ s.depth ∧ s.depth ≤ 253)
    (ho : Enters files s o f) (hread : f.failure = none) :
    (s.perform files o).1 = .done ∧
      ∃ inside ended, Composes s (s.perform files o).2 f inside ended := by
  have hs : s.input.frames ≠ [] := List.ne_nil_of_length_pos hdepth.1
  rw [perform_enters ho hdepth.2]
  exact ⟨rfl, composes_withFrame hforced hs hread⟩

/-- A file without a last line feed, entered after a register: its one comma ends the line. -/
theorem comma_file_composes :
    let s : Scanner := {ofBytes {} "outer" [0x0A] with current := ⟨.registerX, .none, false, .nowhere⟩}
    let files : FileSystem := fun _ => .ok ⟨[Byte.comma], none⟩
    s.forcedEnd = false ∧ (1 ≤ s.depth ∧ s.depth ≤ 253) ∧
      (s.perform files (.enterFile "inner")).1 = .done ∧
      ∃ inside ended, Composes s (s.perform files (.enterFile "inner")).2
        (.ofFile "inner" ⟨[Byte.comma], none⟩) inside ended :=
  ⟨rfl, by decide, enter_composes _ rfl (by decide) (.file rfl) rfl⟩

end AsmScan.Scanner
