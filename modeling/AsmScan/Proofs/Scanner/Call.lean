import AsmScan.Scanner.Next

/-! One call after the other.

A call takes steps. A step takes the lexeme at the front (`step_read`), leaves a source
that has come to its end (`step_leave`), or comes after the end of the scan
(`step_forced`).

`calls` are the first so many calls of `next`, and `after` is the scanner that they
leave. What a call reports is what its steps report, in order: `callsFrom` are the calls
from the midst of one on, and a step moves on from one midst to the next
(`callsFrom_onward`, `callsFrom_found`). -/
namespace AsmScan

namespace Diagnostics

/-- With more messages, the oldest first. -/
def add (d : Diagnostics) (ms : List Message) : Diagnostics := ⟨d.messages ++ ms.toArray⟩

@[simp] theorem add_nil (d : Diagnostics) : d.add [] = d := by
  simp only [add, Array.append_empty]

@[simp] theorem add_add (d : Diagnostics) (a b : List Message) :
    (d.add a).add b = d.add (a ++ b) := by
  simp only [add, Array.append_assoc, List.append_toArray]

@[simp] theorem since_add (d : Diagnostics) (ms : List Message) :
    (d.add ms).since d.count = ms := by
  simp [add, since, count]

theorem since_of_eq {d e : Diagnostics} {ms : List Message} (h : e = d.add ms) :
    e.since d.count = ms := by
  rw [h, since_add]

theorem report_eq_add (d : Diagnostics) (m : Message) : d.report m = d.add [m] := by
  simp only [report, add, Array.push_eq_append]

end Diagnostics

/-- What is reported of a finding in a lexeme that stands at a position. -/
def Finding.message (f : Finding) (pos : Position) : Message :=
  f.problem.toMessage {pos with loc := pos.loc.right f.offset}

/-- What is reported of a lexeme that stands at a position. -/
def Lexeme.messages (l : Lexeme) (pos : Position) : List Message := l.findings.map (·.message pos)

/-- What is wrong with a lexeme at its first byte is reported where the lexeme stands. -/
theorem messages_atStart (problems : List Problem) (pos : Position) :
    (problems.map (Finding.mk 0)).map (·.message pos) = problems.map (·.toMessage pos) := List.map_map

namespace Scanner

/-! ### What a step does -/

theorem reportAll_eq_add (s : Scanner) (findings : List Finding) (pos : Position) :
    s.reportAll findings pos =
      {s with diagnostics := s.diagnostics.add (findings.map (·.message pos))} := by
  induction findings generalizing s with
  | nil => simp only [reportAll, List.foldl_nil, List.map_nil, Diagnostics.add_nil]
  | cons f more ih =>
    rw [reportAll, List.foldl_cons, ← reportAll, ih]
    simp only [report, Finding.message, Diagnostics.report_eq_add, Diagnostics.add_add,
      List.map_cons, List.singleton_append]

/-- Past a lexeme, with its problems reported. -/
def past (s : Scanner) (l : Lexeme) : Scanner :=
  { s with
    input := s.input.advance l.size
    diagnostics := s.diagnostics.add (l.messages s.input.pos) }

/-- As long as a scan has not been ended, a step takes the lexeme at the front. -/
theorem step_read {s : Scanner} (hforced : s.forcedEnd = false) {first : UInt8} {rest : List UInt8}
    (hunread : s.input.unread = first :: rest) (spaced : Bool) :
    s.step spaced = s.takeLexeme spaced (Lexeme.read s.config s.charmap first rest) := by
  unfold step
  rw [if_neg (by simp [hforced]), hunread]

theorem step_forced {s : Scanner} (hforced : s.forcedEnd = true) (spaced : Bool) :
    s.step spaced = s.emit .eof .none spaced s.input.pos := if_pos hforced

/-- A source that has come to its end is left. -/
theorem step_leave {s : Scanner} (hforced : s.forcedEnd = false) (hunread : s.input.unread = [])
    (spaced : Bool) : s.step spaced = s.leaveEnded spaced := by
  unfold step
  rw [if_neg (by simp [hforced]), hunread]

/-- What comes of a lexeme, by its meaning. -/
theorem takeLexeme_eq (s : Scanner) (spaced : Bool) (l : Lexeme) :
    s.takeLexeme spaced l =
      match l.meaning with
      | .blank => .onward true (s.past l)
      | .rejected => .onward spaced (s.past l)
      | .lineEnd =>
        if s.atLineStart then .onward true (s.past l)
        else (s.past l).emit .separator .none spaced s.input.pos
      | .token t attr => (s.past l).emit t attr spaced s.input.pos := by
  unfold takeLexeme
  simp only [reportAll_eq_add]
  rfl

section Leaving
variable {s : Scanner} (spaced : Bool)

/-- A source that could not be read to its end is not left, and ends the scan. -/
theorem leaveEnded_failed {e : InputError} (h : s.input.failure? = some e) :
    s.leaveEnded spaced =
      .found {fail {s with input := s.input.dropFailure} e s.input.pos with
        current := ⟨.eof, .none, spaced, s.input.pos⟩} := by
  unfold leaveEnded
  rw [h]
  rfl

/-- With no source below it a source is not left: its end is the end of input. -/
theorem leaveEnded_last (h : s.input.failure? = none) (hdepth : s.depth ≤ 1) :
    s.leaveEnded spaced = .found {s with current := ⟨.eof, .none, spaced, s.input.pos⟩} := by
  unfold leaveEnded
  rw [h]
  dsimp only
  split
  · contradiction
  next f g below _ hframes =>
    rw [depth, InputStack.depth, hframes] at hdepth
    exact absurd hdepth (by simp)
  · rfl

/-- The source below is resumed. Only a file whose last line has no end yet ends that line first. -/
theorem leaveEnded_covering {f g : Frame} {below : List Frame} (h : s.input.failure? = none)
    (hframes : s.input.frames = f :: g :: below) :
    s.leaveEnded spaced =
      if f.isFile && !s.atLineStart then
        .found { s with
          input := ⟨g :: below, f.pos⟩
          current := ⟨.separator, .none, spaced, s.input.pos⟩ }
      else .onward spaced {s with input := ⟨g :: below, f.pos⟩} := by
  unfold leaveEnded
  rw [h, hframes]
  rfl

/-- There is no source below, or there is. -/
theorem depth_cases (s : Scanner) :
    s.depth ≤ 1 ∨ ∃ f g below, s.input.frames = f :: g :: below := by
  rcases hframes : s.input.frames with _ | ⟨f, _ | ⟨g, below⟩⟩
  · left
    rw [depth, InputStack.depth, hframes]
    exact Nat.zero_le 1
  · left
    rw [depth, InputStack.depth, hframes]
    exact Nat.le_refl 1
  · exact .inr ⟨f, g, below, rfl⟩

end Leaving

/-! ### What steps report -/

/-- A step adds to the messages and changes none. -/
theorem exists_step_add (s : Scanner) (spaced : Bool) :
    ∃ ms, (s.step spaced).scanner.diagnostics = s.diagnostics.add ms := by
  have hnone {t : Step} (ht : t.scanner.diagnostics = s.diagnostics) :
      ∃ ms, t.scanner.diagnostics = s.diagnostics.add ms :=
    ⟨[], ht.trans (Diagnostics.add_nil _).symm⟩
  cases hforced : s.forcedEnd with
  | true => exact hnone (by rw [step_forced hforced]; rfl)
  | false =>
    cases hunread : s.input.unread with
    | cons first rest =>
      let l : Lexeme := .read s.config s.charmap first rest
      refine ⟨l.messages s.input.pos, ?_⟩
      rw [step_read hforced hunread, takeLexeme_eq]
      split
      · rfl
      · rfl
      · split <;> rfl
      · rfl
    | nil =>
      rw [step_leave hforced hunread]
      cases hfailure : s.input.failure? with
      | some e =>
        rw [leaveEnded_failed spaced hfailure]
        exact ⟨_, Diagnostics.report_eq_add ..⟩
      | none =>
        rcases s.depth_cases with hdepth | ⟨f, g, below, hframes⟩
        · exact hnone (by rw [leaveEnded_last spaced hfailure hdepth]; rfl)
        · rw [leaveEnded_covering spaced hfailure hframes]
          split <;> exact hnone rfl

theorem scan_found {s t : Scanner} {spaced : Bool} (h : s.step spaced = .found t) :
    s.scan spaced = t := by
  rw [scan]
  split
  next t' h' =>
    rw [h] at h'
    cases h'
    rfl
  next h' =>
    rw [h] at h'
    contradiction

theorem scan_onward {s t : Scanner} {spaced after : Bool} (h : s.step spaced = .onward after t) :
    s.scan spaced = t.scan after := by
  rw [scan]
  split
  next h' =>
    rw [h] at h'
    contradiction
  next after' t' h' =>
    rw [h] at h'
    cases h'
    rfl

/-- A whole scan adds to the messages and changes none. -/
theorem exists_scan_add (s : Scanner) (spaced : Bool) :
    ∃ ms, (s.scan spaced).diagnostics = s.diagnostics.add ms := by
  fun_induction scan s spaced with
  | case1 s spaced t hstep =>
    obtain ⟨ms, hms⟩ := s.exists_step_add spaced
    rw [hstep] at hms
    exact ⟨ms, hms⟩
  | case2 s spaced after t hstep _ ih =>
    obtain ⟨ms, hms⟩ := s.exists_step_add spaced
    obtain ⟨more, hmore⟩ := ih
    rw [hstep] at hms
    refine ⟨ms ++ more, ?_⟩
    rw [hmore, show t.diagnostics = s.diagnostics.add ms from hms, Diagnostics.add_add]

/-! ### Calls -/

/-- What a call of `next` comes to. -/
def turn (s : Scanner) : Turn := ⟨s.next.diagnostics.since s.diagnostics.count, s.next.current⟩

/-- The scanner after so many calls. -/
def after (s : Scanner) : Nat → Scanner
  | 0 => s
  | n + 1 => s.next.after n

/-- The first so many calls. -/
def calls (s : Scanner) : Nat → List Turn
  | 0 => []
  | n + 1 => s.turn :: s.next.calls n

/-- So many calls, the first of which is under way: it has passed something over or not, and has
reported something. -/
def callsFrom (s : Scanner) (spaced : Bool) (reported : List Message) : Nat → List Turn
  | 0 => []
  | n + 1 =>
    ⟨reported ++ (s.scan spaced).diagnostics.since s.diagnostics.count, (s.scan spaced).current⟩ ::
      (s.scan spaced).calls n

/-- The scanner after so many calls, the first of which is under way. -/
def afterFrom (s : Scanner) (spaced : Bool) : Nat → Scanner
  | 0 => s
  | n + 1 => (s.scan spaced).after n

theorem calls_eq_callsFrom (s : Scanner) (n : Nat) : s.calls n = s.callsFrom false [] n := by
  cases n <;> rfl

theorem after_eq_afterFrom (s : Scanner) (n : Nat) : s.after n = s.afterFrom false n := by
  cases n <;> rfl

/-- The first calls are the first of any more. -/
theorem take_calls (s : Scanner) (n more : Nat) : (s.calls (n + more)).take n = s.calls n := by
  induction n generalizing s with
  | zero => rfl
  | succ n ih =>
    rw [Nat.add_right_comm, calls, List.take_succ_cons, ih]
    rfl

section Steps
variable {s t : Scanner} {spaced after : Bool} {new : List Message}

theorem callsFrom_onward (h : s.step spaced = .onward after t)
    (hd : t.diagnostics = s.diagnostics.add new) (reported : List Message) (n : Nat) :
    s.callsFrom spaced reported n = t.callsFrom after (reported ++ new) n := by
  cases n with
  | zero => rfl
  | succ n =>
    obtain ⟨ms, hms⟩ := t.exists_scan_add after
    have hs : (t.scan after).diagnostics = s.diagnostics.add (new ++ ms) := by
      rw [hms, hd, Diagnostics.add_add]
    have ht : (t.scan after).diagnostics.since t.diagnostics.count = ms := by
      rw [hms, Diagnostics.since_add]
    simp only [callsFrom, scan_onward h, ht]
    rw [hs, Diagnostics.since_add, List.append_assoc]

theorem callsFrom_found (h : s.step spaced = .found t)
    (hd : t.diagnostics = s.diagnostics.add new) (reported : List Message) (n : Nat) :
    s.callsFrom spaced reported (n + 1) = ⟨reported ++ new, t.current⟩ :: t.calls n := by
  simp only [callsFrom, scan_found h, hd, Diagnostics.since_add]

theorem afterFrom_onward (h : s.step spaced = .onward after t) (n : Nat) :
    s.afterFrom spaced (n + 1) = t.afterFrom after (n + 1) := by
  simp only [afterFrom, scan_onward h]

theorem afterFrom_found (h : s.step spaced = .found t) (n : Nat) :
    s.afterFrom spaced (n + 1) = t.after n := by
  simp only [afterFrom, scan_found h]

end Steps

theorem turns_of_eof {s : Scanner} (h : s.turn.found.token = .eof) :
    s.turns = ([s.turn], s.next) := by
  have h : s.next.current.token = .eof := h
  rw [turns, dif_pos h]
  rfl

theorem turns_of_ne_eof {s : Scanner} (h : s.turn.found.token ≠ .eof) :
    s.turns = (s.turn :: s.next.turns.1, s.next.turns.2) := by
  have h : s.next.current.token ≠ .eof := h
  rw [turns, dif_neg h]
  rfl

/-- Scanning to the end is calling until the end is found. -/
theorem turns_eq_calls {s : Scanner} {ts : List Turn} {e : Turn}
    (h : s.calls (ts.length + 1) = ts ++ [e]) (hts : ∀ t ∈ ts, t.found.token ≠ .eof)
    (he : e.found.token = .eof) : s.turns = (ts ++ [e], s.after (ts.length + 1)) := by
  induction ts generalizing s with
  | nil =>
    obtain ⟨hturn, -⟩ := List.cons.inj h
    rw [turns_of_eof (by rwa [hturn]), hturn]
    rfl
  | cons t ts ih =>
    obtain ⟨hturn, hmore⟩ := List.cons.inj h
    have hne : s.turn.found.token ≠ .eof := by
      rw [hturn]
      exact hts t (List.mem_cons_self ..)
    rw [turns_of_ne_eof hne, ih hmore fun t ht => hts t (List.mem_cons_of_mem _ ht), hturn]
    rfl

end Scanner
end AsmScan
