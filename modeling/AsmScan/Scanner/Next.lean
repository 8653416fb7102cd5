import AsmScan.Lexeme.Read
import AsmScan.Scanner.Basic

/-! Finding the next token.

A scan takes steps until one of them finds a token. A step takes a lexeme off the
top frame, or leaves a frame that has come to its end; either way less remains to be
read (`step_onward_lt`), so the scan ends. The end of all input is found again and
again; any other token uses something up (`next_lt`), so there is a first end, up to
which `turns` scans. -/
namespace AsmScan.Scanner

/-- What comes of one step. -/
inductive Step where
  | found (s : Scanner)
  /-- Nothing was found; `spaced` tells whether something was passed over so far. -/
  | onward (spaced : Bool) (s : Scanner)

/-- The step that finds a token. -/
def emit (s : Scanner) (token : Token) (attr : Attr) (spaced : Bool) (pos : Position) : Step :=
  .found {s with current := ⟨token, attr, spaced, pos⟩}

/-- Whether the line is empty so far, so that its end is no separator. -/
def atLineStart (s : Scanner) : Bool :=
  s.current.token = .initial || s.current.token = .separator

/-- Reports what was found wrong with a lexeme that stands at a position. -/
def reportAll (s : Scanner) (findings : List Finding) (pos : Position) : Scanner :=
  findings.foldl (fun s f => s.report f.problem {pos with loc := pos.loc.right f.offset}) s

/-- Takes a lexeme off the top frame. -/
def takeLexeme (s : Scanner) (spaced : Bool) (l : Lexeme) : Step :=
  let pos := s.input.pos
  let s := {s with input := s.input.advance l.size}.reportAll l.findings pos
  match l.meaning with
  | .blank => .onward true s
  | .rejected => .onward spaced s
  | .lineEnd => if s.atLineStart then .onward true s else s.emit .separator .none spaced pos
  | .token t attr => s.emit t attr spaced pos

/-- Leaves a frame that has come to its end. A read failure ends the scan instead, and so does the
end of the last frame. A file ends its last line even without a line feed. -/
def leaveEnded (s : Scanner) (spaced : Bool) : Step :=
  let pos := s.input.pos
  match s.input.failure?, s.input.frames with
  | some e, _ => ({s with input := s.input.dropFailure}.fail e pos).emit .eof .none spaced pos
  | none, f :: g :: below =>
    let s := {s with input := ⟨g :: below, f.pos⟩}
    if f.isFile && !s.atLineStart then s.emit .separator .none spaced pos else .onward spaced s
  | none, _ => s.emit .eof .none spaced pos

/-- One step, after others that passed something over or not. -/
def step (s : Scanner) (spaced : Bool) : Step :=
  if s.forcedEnd then s.emit .eof .none spaced s.input.pos
  else
    match s.input.unread with
    | first :: rest => s.takeLexeme spaced (.read s.config s.charmap first rest)
    | [] => s.leaveEnded spaced

/-! ### Less and less remains to be read -/

namespace Step

/-- The scanner after the step. -/
def scanner : Step → Scanner
  | .found s | .onward _ s => s

end Step

theorem input_reportAll (s : Scanner) (findings : List Finding) (pos : Position) :
    (s.reportAll findings pos).input = s.input := by
  induction findings generalizing s with
  | nil => rfl
  | cons f more ih => exact ih _

theorem remaining_takeLexeme_lt (s : Scanner) (spaced : Bool) (l : Lexeme)
    (hu : s.input.unread ≠ []) :
    (s.takeLexeme spaced l).scanner.input.remaining < s.input.remaining := by
  have h : ({s with input := s.input.advance l.size}.reportAll l.findings
      s.input.pos).input.remaining < s.input.remaining := by
    rw [input_reportAll]
    exact s.input.remaining_advance_lt l.size_pos hu
  unfold takeLexeme
  dsimp only
  split
  · exact h
  · exact h
  · split <;> exact h
  · exact h

/-- At the end of a frame less remains, unless the end of all input is found. -/
theorem remaining_leaveEnded (s : Scanner) (spaced : Bool) :
    (s.leaveEnded spaced).scanner.input.remaining < s.input.remaining ∨
      ∃ t, s.leaveEnded spaced = .found t ∧ t.current.token = .eof ∧
        t.input.remaining = s.input.remaining := by
  unfold leaveEnded
  dsimp only
  split
  · exact .inr ⟨_, rfl, rfl, s.input.remaining_dropFailure⟩
  next f g below _ hframes =>
    left
    have : (InputStack.mk (g :: below) f.pos).remaining < s.input.remaining := by
      simp only [InputStack.remaining, hframes, List.foldr_cons]
      omega
    split <;> exact this
  · exact .inr ⟨_, rfl, rfl, rfl⟩

theorem remaining_step (s : Scanner) (spaced : Bool) :
    (s.step spaced).scanner.input.remaining < s.input.remaining ∨
      ∃ t, s.step spaced = .found t ∧ t.current.token = .eof ∧
        t.input.remaining = s.input.remaining := by
  unfold step
  split
  · exact .inr ⟨_, rfl, rfl, rfl⟩
  · split
    next first rest hu => exact .inl (s.remaining_takeLexeme_lt spaced _ (by simp [hu]))
    · exact s.remaining_leaveEnded spaced

/-- After a step that finds nothing, less remains to be read. -/
theorem step_onward_lt {s t : Scanner} {spaced after : Bool}
    (h : s.step spaced = .onward after t) : t.input.remaining < s.input.remaining := by
  rcases s.remaining_step spaced with hlt | ⟨u, hu, -⟩
  · rwa [h] at hlt
  · rw [h] at hu
    contradiction

/-! ### Scanning -/

/-- Takes steps until a token is found. -/
def scan (s : Scanner) (spaced : Bool) : Scanner :=
  match h : s.step spaced with
  | .found t => t
  | .onward after t =>
    have := step_onward_lt h
    t.scan after
termination_by s.input.remaining

/-- Finds the next token. -/
def next (s : Scanner) : Scanner := s.scan false

theorem scan_lt (s : Scanner) (spaced : Bool) (h : (s.scan spaced).current.token ≠ .eof) :
    (s.scan spaced).input.remaining < s.input.remaining := by
  fun_induction scan s spaced with
  | case1 s spaced t hstep =>
    rcases s.remaining_step spaced with hlt | ⟨u, hu, heof, -⟩
    · rwa [hstep] at hlt
    · rw [hstep] at hu
      cases hu
      exact absurd heof h
  | case2 s spaced after t _ hlt ih => exact Nat.lt_trans (ih h) hlt

/-- Each token but the end of input uses something up. -/
theorem next_lt (s : Scanner) (h : s.next.current.token ≠ .eof) :
    s.next.input.remaining < s.input.remaining :=
  scan_lt s false h

/-! ### Scanning to the end -/

/-- One call of `next`: what it reported, and the token that it found. -/
structure Turn where
  reported : List Message
  found : Occurrence
deriving DecidableEq

/-- Finds tokens up to the end of input. -/
def turns (s : Scanner) : List Turn × Scanner :=
  let count := s.diagnostics.count
  let after := s.next
  let turn : Turn := ⟨after.diagnostics.since count, after.current⟩
  if h : after.current.token = .eof then ([turn], after)
  else
    have := next_lt s h
    let (more, last) := after.turns
    (turn :: more, last)
termination_by s.input.remaining

end AsmScan.Scanner
