import AsmScan.Proofs.Lexeme.Apart
import AsmScan.Proofs.Scanner.Frame
import AsmScan.Proofs.Scanner.Step

/-! What a call takes from the sources.

A step takes bytes off the front of the top source, or it leaves that source at its
end, or it takes nothing. Which of these it is can be told from the stack before the
step and after it (`InputStack.intake`), and what a call takes is what its steps take,
in order (`taken`). Nothing is lost besides: what a call leaves is what remains of the
sources once all that has been taken from them (`drains_scan`). The end of a line is
among it only where the call finds a separator, or goes on at the start of a line
(`not_endsLine_of_mem_taken`). -/
namespace AsmScan

/-- Something that a step takes from the sources. -/
inductive Intake where
  /-- Bytes from the front of the top source. -/
  | bytes (taken : List UInt8)
  /-- The top source, which is left. -/
  | source (f : Frame)
deriving DecidableEq

namespace Intake

/-- The bytes that are read. -/
def read : Intake → List UInt8
  | .bytes taken => taken
  | .source _ => []

/-- Whether a line ends with it: a line feed does that unless it is joined with the next line, and
so does the end of a file. -/
def EndsLine (c : Config) : Intake → Prop
  | .bytes taken => Byte.lineFeed ∈ taken ∧ ¬ Lexeme.Joins c taken
  | .source f => f.isFile = true

end Intake

namespace InputStack

/-- What has gone from a stack in a step. -/
def intake (before after : InputStack) : List Intake :=
  if after.depth < before.depth then (before.top?.map Intake.source).toList
  else
    match before.unread.take (before.unread.length - after.unread.length) with
    | [] => []
    | b :: more => [.bytes (b :: more)]

theorem intake_of_kept {before after : InputStack} (hdepth : after.depth = before.depth)
    (hunread : after.unread = before.unread) : before.intake after = [] := by
  unfold intake
  rw [if_neg (Nat.not_lt_of_le (Nat.le_of_eq hdepth.symm)), hunread, Nat.sub_self, List.take_zero]

@[simp] theorem intake_self (input : InputStack) : input.intake input = [] := intake_of_kept rfl rfl

/-- A read failure can be forgotten without taking anything. -/
@[simp] theorem intake_dropFailure (input : InputStack) : input.intake input.dropFailure = [] := by
  obtain ⟨frames, last⟩ := input
  cases frames <;> exact intake_of_kept rfl rfl

/-- What is taken when a source is left. -/
theorem intake_leave {input : InputStack} {f : Frame} {below : List Frame}
    (h : input.frames = f :: below) (last : Position) : input.intake ⟨below, last⟩ = [.source f] := by
  have hdepth : (InputStack.mk below last).depth < input.depth := by
    rw [depth, depth, h]
    exact Nat.lt_succ_self _
  unfold intake
  rw [if_pos hdepth, top?, h]
  rfl

/-- What is taken of bytes that lie ahead: as many as are passed. -/
theorem intake_advance {input : InputStack} {f : Frame} {below : List Frame}
    (h : input.frames = f :: below) {count : Nat} (hpos : 0 < count)
    (hle : count ≤ f.unread.length) :
    input.intake (input.advance count) = [.bytes (f.unread.take count)] := by
  have hdepth : (input.advance count).depth = input.depth := by
    rw [depth, depth, frames_advance h, h]
    rfl
  have hcount : f.unread.length - (f.unread.drop count).length = count := by
    rw [List.length_drop]
    omega
  have hsome : f.unread.take count ≠ [] := by
    rw [← List.length_pos_iff, List.length_take, Nat.min_eq_left hle]
    exact hpos
  unfold intake
  rw [if_neg (Nat.not_lt_of_le (Nat.le_of_eq hdepth.symm)), unread_advance, unread_of_frames h, hcount]
  split
  next hnone => exact absurd hnone hsome
  next hcons => rw [hcons]

end InputStack

namespace Scanner

/-- What the steps of a scan take from the sources, up to the one that finds a token. -/
def taken (s : Scanner) (spaced : Bool) : List Intake :=
  match h : s.step spaced with
  | .found t => s.input.intake t.input
  | .onward after t =>
    have := step_onward_lt h
    s.input.intake t.input ++ t.taken after
termination_by s.input.remaining

section Steps
variable {s t : Scanner} {spaced after : Bool}

theorem taken_found (h : s.step spaced = .found t) : s.taken spaced = s.input.intake t.input := by
  rw [taken]
  split
  next h' =>
    rw [h] at h'
    cases h'
    rfl
  next h' =>
    rw [h] at h'
    contradiction

theorem taken_onward (h : s.step spaced = .onward after t) :
    s.taken spaced = s.input.intake t.input ++ t.taken after := by
  rw [taken]
  split
  next h' =>
    rw [h] at h'
    contradiction
  next h' =>
    rw [h] at h'
    cases h'
    rfl

/-- A lexeme lies ahead in the top source, all of it. -/
theorem Meets.exists_frame {l : Lexeme} (h : s.Meets l) :
    ∃ first rest f below, s.input.frames = f :: below ∧ f.unread = first :: rest ∧
      l = .read s.config s.charmap first rest ∧ l.size ≤ f.unread.length := by
  obtain ⟨first, rest, hunread, hl⟩ := h.read
  cases hs : s.input.frames with
  | nil =>
    rw [InputStack.unread, InputStack.top?, hs] at hunread
    contradiction
  | cons f below =>
    have hf : f.unread = first :: rest := (InputStack.unread_of_frames hs).symm.trans hunread
    refine ⟨first, rest, f, below, rfl, hf, hl, ?_⟩
    rw [hl, hf, List.length_cons, Nat.add_comm]
    exact Lexeme.size_read_le s.config s.charmap first rest

end Steps

/-! ### What is left -/

/-- The frames that remain once something was taken from others. A source is left only at its end,
and where it could be read to that. -/
inductive Drains : List Frame → List Intake → List Frame → Prop where
  | refl {frames : List Frame} : Drains frames [] frames
  | bytes {f : Frame} {below left : List Frame} {taken rest : List UInt8} {more : List Intake} :
      f.unread = taken ++ rest → Drains (f.advance taken.length :: below) more left →
      Drains (f :: below) (.bytes taken :: more) left
  | source {f : Frame} {below left : List Frame} {more : List Intake} :
      f.unread = [] → f.failure = none → Drains below more left →
      Drains (f :: below) (.source f :: more) left

/-- What a call leaves: what remains, only that a read failure is forgotten once it is met. -/
inductive Settles (left : List Frame) : List Frame → Prop where
  | kept : Settles left left
  | failed {f : Frame} {below : List Frame} {why : ReadFailure} :
      left = f :: below → f.unread = [] → f.failure = some why →
      Settles left ({f with failure := none} :: below)

theorem Drains.append {frames between left : List Frame} {taken more : List Intake}
    (h : Drains frames taken between) (hmore : Drains between more left) :
    Drains frames (taken ++ more) left := by
  induction h with
  | refl => exact hmore
  | bytes hf _ ih => exact .bytes hf (ih hmore)
  | source hf hread _ ih => exact .source hf hread (ih hmore)

/-- What was read and what is left to read make up what there was. -/
theorem Drains.flatMap_unread {frames left : List Frame} {taken : List Intake}
    (h : Drains frames taken left) :
    frames.flatMap Frame.unread = taken.flatMap Intake.read ++ left.flatMap Frame.unread := by
  induction h with
  | refl => rfl
  | @bytes f below left taken rest more hf _ ih =>
    have hadvance : (f.advance taken.length).unread = rest := by
      rw [Frame.advance, hf, List.drop_left]
    rw [List.flatMap_cons, hadvance] at ih
    rw [List.flatMap_cons, List.flatMap_cons, hf, List.append_assoc, ih, List.append_assoc,
      Intake.read]
  | source hf _ _ ih =>
    rw [List.flatMap_cons, List.flatMap_cons, hf, ih, Intake.read, List.nil_append, List.nil_append]

theorem Drains.length_le {frames left : List Frame} {taken : List Intake}
    (h : Drains frames taken left) : left.length ≤ frames.length := by
  induction h with
  | refl => exact Nat.le_refl _
  | bytes _ _ ih => exact ih
  | source _ _ _ ih => exact Nat.le_succ_of_le ih

theorem Settles.length_eq {left frames : List Frame} (h : Settles left frames) :
    frames.length = left.length := by
  cases h with
  | kept => rfl
  | failed hleft => rw [hleft, List.length_cons, List.length_cons]

section Drained
variable {s t : Scanner} {spaced after : Bool}

theorem drains_past {l : Lexeme} (h : s.Meets l) :
    Drains s.input.frames (s.input.intake (s.past l).input) (s.past l).input.frames := by
  obtain ⟨first, rest, f, below, hs, -, -, hsize⟩ := h.exists_frame
  have hadvance : f.advance (f.unread.take l.size).length = f.advance l.size := by
    rw [List.length_take, Nat.min_eq_left hsize]
  have hpast : (s.past l).input.frames = f.advance l.size :: below :=
    InputStack.frames_advance hs l.size
  have htaken : s.input.intake (s.past l).input = [.bytes (f.unread.take l.size)] :=
    InputStack.intake_advance hs l.size_pos hsize
  rw [htaken, hpast, hs]
  exact .bytes (List.take_append_drop l.size f.unread).symm (hadvance ▸ .refl)

theorem drains_leave {f : Frame} {below : List Frame} (h : s.AtEnd f below)
    (hread : f.failure = none) (last : Position) :
    Drains s.input.frames (s.input.intake ⟨below, last⟩) below := by
  rw [InputStack.intake_leave h.frames, h.frames]
  exact .source h.unread hread .refl

theorem AtEnd.frames_dropFailure {f : Frame} {below : List Frame} (h : s.AtEnd f below) :
    s.input.dropFailure.frames = {f with failure := none} :: below := by
  rw [InputStack.dropFailure, InputStack.mapTop, h.frames]
  rfl

/-- A step that finds nothing loses nothing besides what it takes. -/
theorem drains_onward (h : s.step spaced = .onward after t) :
    Drains s.input.frames (s.input.intake t.input) t.input.frames := by
  cases goes_onward h with
  | passed hl => exact drains_past hl
  | resumed hend hread => exact drains_leave hend hread _

theorem drains_found (h : s.step spaced = .found t) :
    ∃ left, Drains s.input.frames (s.input.intake t.input) left ∧ Settles left t.input.frames := by
  cases goes_found h with
  | forced => exact ⟨_, s.input.intake_self.symm ▸ .refl, .kept⟩
  | token hl => exact ⟨_, drains_past hl, .kept⟩
  | lineEnd hl => exact ⟨_, drains_past hl, .kept⟩
  | @failed f below why hend hwhy =>
    have htaken : s.input.intake s.input.dropFailure = [] := s.input.intake_dropFailure
    have hsettles : Settles s.input.frames s.input.dropFailure.frames := by
      rw [hend.frames_dropFailure]
      exact .failed hend.frames hend.unread hwhy
    exact ⟨s.input.frames, htaken.symm ▸ .refl, hsettles⟩
  | ended => exact ⟨_, s.input.intake_self.symm ▸ .refl, .kept⟩
  | fileEnd hend hread => exact ⟨_, drains_leave hend hread _, .kept⟩

/-- **A call loses nothing besides what it takes.** -/
theorem drains_scan (s : Scanner) (spaced : Bool) :
    ∃ left, Drains s.input.frames (s.taken spaced) left ∧
      Settles left (s.scan spaced).input.frames := by
  fun_induction scan s spaced with
  | case1 s spaced t hstep =>
    rw [taken_found hstep]
    exact drains_found hstep
  | case2 s spaced after t hstep _ ih =>
    obtain ⟨left, hleft, hsettles⟩ := ih
    rw [taken_onward hstep]
    exact ⟨left, (drains_onward hstep).append hleft, hsettles⟩

end Drained

/-! ### Ends of lines -/

section Lines
variable {s t : Scanner} {spaced after : Bool}

/-- A lexeme that takes the end of a line is one. -/
theorem meaning_of_endsLine {l : Lexeme} (h : s.Meets l) {i : Intake}
    (hi : i ∈ s.input.intake (s.past l).input) (hline : i.EndsLine s.config) :
    l.meaning = .lineEnd := by
  obtain ⟨first, rest, f, below, hs, hf, rfl, hsize⟩ := h.exists_frame
  have htaken := InputStack.intake_advance hs (Lexeme.size_pos _) hsize
  rw [show (s.past _).input = s.input.advance _ from rfl, htaken, hf, List.mem_singleton] at hi
  subst hi
  obtain ⟨hfeed, hjoins⟩ := hline
  -- Any other lexeme with a line feed in it joins two lines.
  obtain rfl := (Lexeme.eq_or_joins_of_mem s.config s.charmap hfeed).resolve_right hjoins
  rw [show Lexeme.read s.config s.charmap Byte.lineFeed rest = {meaning := .lineEnd, size := 1} from
    if_neg (Lexeme.ne_mark s.config (by decide))]

/-- Where the line is not empty, a step that passes something over does not end it. -/
theorem not_endsLine_onward (h : s.step spaced = .onward after t) (hline : s.atLineStart = false) :
    ∀ i ∈ s.input.intake t.input, ¬ i.EndsLine s.config := by
  intro i hi hends
  cases goes_onward h with
  | passed hl _ hstart =>
    have := hstart (meaning_of_endsLine hl hi hends)
    simp [hline] at this
  | @resumed f g below hend _ hfile =>
    rw [InputStack.intake_leave hend.frames, List.mem_singleton] at hi
    subst hi
    have := hfile hends
    simp [hline] at this

/-- Nor does one that finds something else than a separator. -/
theorem not_endsLine_found (h : s.step spaced = .found t) (hne : t.current.token ≠ .separator) :
    ∀ i ∈ s.input.intake t.input, ¬ i.EndsLine s.config := by
  intro i hi hends
  cases goes_found h with
  | forced => simp at hi
  | token hl htoken =>
    have := meaning_of_endsLine hl hi hends
    rw [htoken] at this
    contradiction
  | lineEnd => exact hne rfl
  | failed => simp [fail, report] at hi
  | ended => simp at hi
  | fileEnd => exact hne rfl

/-- **The end of a line is marked**: where the line is not empty, a call that takes it finds a
separator. -/
theorem not_endsLine_of_mem_taken (s : Scanner) (spaced : Bool) (hline : s.atLineStart = false)
    (hne : (s.scan spaced).current.token ≠ .separator) :
    ∀ i ∈ s.taken spaced, ¬ i.EndsLine s.config := by
  fun_induction scan s spaced with
  | case1 s spaced t hstep =>
    rw [taken_found hstep]
    exact not_endsLine_found hstep hne
  | case2 s spaced after t hstep _ ih =>
    obtain ⟨hcurrent, hconfig, -⟩ := kept_of_onward hstep
    have hstart : t.atLineStart = false := by rw [← hline, atLineStart, atLineStart, hcurrent]
    intro i hi
    rw [taken_onward hstep] at hi
    rcases List.mem_append.1 hi with hi | hi
    · exact not_endsLine_onward hstep hline i hi
    · exact hconfig ▸ ih hstart hne i hi

/-- **Nothing is marked twice**: where the line is empty, no separator is found. -/
theorem ne_separator_of_atLineStart (s : Scanner) (spaced : Bool) (hline : s.atLineStart = true) :
    (s.scan spaced).current.token ≠ .separator := by
  fun_induction scan s spaced with
  | case1 s spaced t hstep =>
    cases goes_found hstep with
    | forced | failed | ended =>
      intro h
      cases h
    | token hl htoken =>
      rintro rfl
      have := hl.isEnd_eq htoken
      contradiction
    | lineEnd _ _ hfull =>
      rw [hline] at hfull
      contradiction
    | fileEnd _ _ _ hfull =>
      rw [hline] at hfull
      contradiction
  | case2 s spaced after t hstep _ ih =>
    obtain ⟨hcurrent, -⟩ := kept_of_onward hstep
    exact ih (by rw [← hline, atLineStart, atLineStart, hcurrent])

end Lines
end Scanner
end AsmScan
