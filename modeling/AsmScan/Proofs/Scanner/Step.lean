import AsmScan.Proofs.Lexeme.Attribute
import AsmScan.Proofs.Scanner.Call

/-! What a step does.

A step takes a lexeme off the top source or finds that source at its end, unless the
end was forced. `Goes` has one case for each of the things that can come of that, with
what must be the case for it, and `goes_step` says that there are no others. What holds
of every step is shown by cases on it. -/
namespace AsmScan.Scanner

/-- A lexeme lies ahead, at the front of the top source. -/
structure Meets (s : Scanner) (l : Lexeme) : Prop where
  unforced : s.forcedEnd = false
  read : ∃ first rest, s.input.unread = first :: rest ∧ l = .read s.config s.charmap first rest

/-- The top source is at its end. -/
structure AtEnd (s : Scanner) (f : Frame) (below : List Frame) : Prop where
  unforced : s.forcedEnd = false
  frames : s.input.frames = f :: below
  unread : f.unread = []

/-- What can come of a step, after others that passed something over or not. -/
inductive Goes (s : Scanner) (spaced : Bool) : Step → Prop where
  | forced : s.forcedEnd = true →
      Goes s spaced (.found {s with current := ⟨.eof, .none, spaced, s.input.pos⟩})
  /-- A lexeme that is no token, or ends an empty line. -/
  | passed {l : Lexeme} : s.Meets l → (∀ t attr, l.meaning ≠ .token t attr) →
      (l.meaning = .lineEnd → s.atLineStart = true) →
      Goes s spaced (.onward (spaced || l.meaning ≠ Meaning.rejected) (s.past l))
  | token {l : Lexeme} {t : Token} {attr : Attr} : s.Meets l → l.meaning = .token t attr →
      Goes s spaced (.found {s.past l with current := ⟨t, attr, spaced, s.input.pos⟩})
  | lineEnd {l : Lexeme} : s.Meets l → l.meaning = .lineEnd → s.atLineStart = false →
      Goes s spaced (.found {s.past l with current := ⟨.separator, .none, spaced, s.input.pos⟩})
  /-- The top source could not be read to its end. -/
  | failed {f : Frame} {below : List Frame} {why : ReadFailure} :
      s.AtEnd f below → f.failure = some why →
      Goes s spaced (.found
        {fail {s with input := s.input.dropFailure} (.unreadable f.name why) s.input.pos with
          current := ⟨.eof, .none, spaced, s.input.pos⟩})
  /-- No source is left, or only one that is at its end. -/
  | ended : s.forcedEnd = false → s.depth ≤ 1 → s.input.unread = [] → s.input.failure? = none →
      Goes s spaced (.found {s with current := ⟨.eof, .none, spaced, s.input.pos⟩})
  /-- A file ends its last line, which has something on it. -/
  | fileEnd {f g : Frame} {below : List Frame} :
      s.AtEnd f (g :: below) → f.failure = none → f.isFile = true → s.atLineStart = false →
      Goes s spaced (.found
        { s with
          input := ⟨g :: below, f.pos⟩
          current := ⟨.separator, .none, spaced, s.input.pos⟩ })
  /-- The source below is resumed. -/
  | resumed {f g : Frame} {below : List Frame} :
      s.AtEnd f (g :: below) → f.failure = none → (f.isFile = true → s.atLineStart = true) →
      Goes s spaced (.onward spaced {s with input := ⟨g :: below, f.pos⟩})

variable {s t : Scanner} {spaced after : Bool}

/-- No lexeme is the end of something. -/
theorem Meets.isEnd_eq {l : Lexeme} {t : Token} {attr : Attr} (h : s.Meets l)
    (hl : l.meaning = .token t attr) : Lexeme.isEnd t = false := by
  obtain ⟨first, rest, -, rfl⟩ := h.read
  exact Lexeme.ordinary_read _ _ _ _ t attr hl

/-- A lexeme that is passed over. -/
theorem goes_past {l : Lexeme} (h : s.Meets l) (htoken : ∀ t attr, l.meaning ≠ .token t attr)
    (hstart : l.meaning = .lineEnd → s.atLineStart = true)
    (hafter : after = (spaced || l.meaning ≠ Meaning.rejected)) :
    Goes s spaced (.onward after (s.past l)) := by
  rw [hafter]
  exact .passed h htoken hstart

theorem goes_takeLexeme {l : Lexeme} (h : s.Meets l) : Goes s spaced (s.takeLexeme spaced l) := by
  rw [takeLexeme_eq]
  cases hl : l.meaning with
  | blank => exact goes_past h (by simp [hl]) (by simp [hl]) (by simp [hl])
  | rejected => exact goes_past h (by simp [hl]) (by simp [hl]) (by simp [hl])
  | token t attr => exact .token h hl
  | lineEnd =>
    cases hs : s.atLineStart with
    | false => exact .lineEnd h hl hs
    | true => exact goes_past h (by simp [hl]) (fun _ => hs) (by simp [hl])

theorem goes_leaveEnded (hf : s.forcedEnd = false) (hu : s.input.unread = []) :
    Goes s spaced (s.leaveEnded spaced) := by
  have hends {f : Frame} {below : List Frame} (hs : s.input.frames = f :: below) :
      s.AtEnd f below ∧ s.input.failure? = f.failure.map (.unreadable f.name) := by
    have hend : f.unread = [] := (InputStack.unread_of_frames hs).symm.trans hu
    refine ⟨⟨hf, hs, hend⟩, ?_⟩
    rw [InputStack.failure?_of_frames hs, Frame.pending?, hend]
    rfl
  cases hfailure : s.input.failure? with
  | some e =>
    rw [leaveEnded_failed spaced hfailure]
    cases hs : s.input.frames with
    | nil =>
      rw [InputStack.failure?, InputStack.top?, hs] at hfailure
      contradiction
    | cons f below =>
      obtain ⟨hend, heq⟩ := hends hs
      rw [heq] at hfailure
      obtain ⟨why, hwhy, rfl⟩ := Option.map_eq_some_iff.1 hfailure
      exact .failed hend hwhy
  | none =>
    rcases s.depth_cases with hdepth | ⟨f, g, below, hs⟩
    · rw [leaveEnded_last spaced hfailure hdepth]
      exact .ended hf hdepth hu hfailure
    · obtain ⟨hend, heq⟩ := hends hs
      have hread : f.failure = none := Option.map_eq_none_iff.1 (heq.symm.trans hfailure)
      rw [leaveEnded_covering spaced hfailure hs]
      cases hfile : f.isFile <;> cases hline : s.atLineStart
      · exact .resumed hend hread (by simp [hfile])
      · exact .resumed hend hread (by simp [hfile])
      · exact .fileEnd hend hread hfile hline
      · exact .resumed hend hread fun _ => hline

/-- **Nothing else can come of a step.** -/
theorem goes_step (s : Scanner) (spaced : Bool) : Goes s spaced (s.step spaced) := by
  by_cases hf : s.forcedEnd = true
  · rw [step_forced hf]
    exact .forced hf
  have hf : s.forcedEnd = false := Bool.eq_false_iff.2 hf
  cases hu : s.input.unread with
  | cons first rest =>
    rw [step_read hf hu]
    exact goes_takeLexeme ⟨hf, first, rest, hu, rfl⟩
  | nil =>
    rw [step_leave hf hu]
    exact goes_leaveEnded hf hu

theorem goes_found (h : s.step spaced = .found t) : Goes s spaced (.found t) :=
  h ▸ s.goes_step spaced

theorem goes_onward (h : s.step spaced = .onward after t) : Goes s spaced (.onward after t) :=
  h ▸ s.goes_step spaced

/-- A step that finds nothing changes neither the token found last nor the configuration, and the
end is not forced before it or after it. -/
theorem kept_of_onward (h : s.step spaced = .onward after t) :
    t.current = s.current ∧ t.config = s.config ∧ t.charmap = s.charmap ∧
      s.forcedEnd = false ∧ t.forcedEnd = false := by
  cases goes_onward h with
  | passed hl => exact ⟨rfl, rfl, rfl, hl.unforced, hl.unforced⟩
  | resumed hend => exact ⟨rfl, rfl, rfl, hend.unforced, hend.unforced⟩

end AsmScan.Scanner
