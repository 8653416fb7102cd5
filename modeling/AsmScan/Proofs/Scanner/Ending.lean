import AsmScan.Proofs.Scanner.Intake
import AsmScan.Proofs.Scanner.Run

/-! The end of input.

A call finds the end of input for one of three reasons (`Ended`): it was forced before,
or the call forces it where a source cannot be read on, or no source below the top one
is left and that is at its end. Whichever it was, the end has been reached (`Over`), and
until a source is entered no operation leads away from it: every call finds the end
again, changes nothing else, and reports nothing (`Over.next_eq`). A forced end stays
whatever is entered. -/
namespace AsmScan.Scanner

/-! ### Reaching the end -/

/-- Why a scan comes to the end of input, and what it has taken from the sources by then. -/
inductive Ended (s : Scanner) (taken : List Intake) (t : Scanner) : Prop where
  /-- The end was forced before the scan, which reads nothing. -/
  | forced : s.forcedEnd = true → t.input = s.input → Ended s taken t
  /-- A source is at its end and could not be read to it. That forces the end. -/
  | failed {f : Frame} {below : List Frame} {why : ReadFailure} : s.forcedEnd = false →
      Drains s.input.frames taken (f :: below) → f.unread = [] → f.failure = some why →
      t.input.frames = {f with failure := none} :: below → t.forcedEnd = true → Ended s taken t
  /-- All that the sources held has been read, and no more than one is left. -/
  | last : s.forcedEnd = false → Drains s.input.frames taken t.input.frames →
      t.depth ≤ 1 → t.unreadCount = 0 →
      taken.flatMap Intake.read = s.input.frames.flatMap Frame.unread → t.forcedEnd = false →
      Ended s taken t

/-- A scanner at the end of input, which is forced or has no more than one source, at its end. -/
inductive Over (s : Scanner) : Prop where
  | forced : s.forcedEnd = true → Over s
  | last : s.depth ≤ 1 → s.input.unread = [] → s.input.failure? = none → Over s

/-- What every call comes to at the end of input: the end, without an attribute, and nothing read or
reported. -/
structure FindsEnd (s : Scanner) : Prop where
  token : s.next.current.token = .eof
  attr : s.next.current.attr = .none
  diagnostics : s.next.diagnostics = s.diagnostics
  input : s.next.input = s.input

/-- With a single source at its end, or none, nothing is unread. -/
theorem flatMap_unread_of_depth_le {input : InputStack} (hdepth : input.depth ≤ 1)
    (hunread : input.unread = []) : input.frames.flatMap Frame.unread = [] := by
  obtain ⟨frames, last⟩ := input
  cases frames with
  | nil => rfl
  | cons f below =>
    obtain rfl : below = [] :=
      List.eq_nil_of_length_eq_zero (Nat.le_zero.1 (Nat.le_of_succ_le_succ hdepth))
    rw [List.flatMap_singleton]
    exact hunread

section Scan
variable {s t : Scanner} {spaced after : Bool}

/-- A step that finds the end of input has come to it. -/
theorem ended_found (h : s.step spaced = .found t) (heof : t.current.token = .eof) :
    Ended s (s.taken spaced) t ∧ Over t := by
  rw [taken_found h]
  cases goes_found h with
  | forced hforced => exact ⟨.forced hforced rfl, .forced hforced⟩
  | token hl htoken =>
    cases heof
    have := hl.isEnd_eq htoken
    contradiction
  | lineEnd => contradiction
  | @failed f below why hend hwhy =>
    have hdrains : Drains s.input.frames (s.input.intake s.input.dropFailure) (f :: below) := by
      rw [InputStack.intake_dropFailure, hend.frames]
      exact .refl
    exact ⟨.failed hend.unforced hdrains hend.unread hwhy hend.frames_dropFailure rfl, .forced rfl⟩
  | ended hforced hdepth hunread hfailure =>
    have hall := flatMap_unread_of_depth_le hdepth hunread
    refine ⟨?_, .last hdepth hunread hfailure⟩
    rw [InputStack.intake_self]
    exact .last hforced .refl hdepth (congrArg List.length hall) hall.symm hforced
  | fileEnd => contradiction

/-- What a step has passed over before the end was found was read as well. -/
theorem Ended.of_onward {taken : List Intake} {u : Scanner} (h : Ended t taken u)
    (hstep : s.step spaced = .onward after t) :
    Ended s (s.input.intake t.input ++ taken) u := by
  obtain ⟨-, -, -, hs, ht⟩ := kept_of_onward hstep
  have hdrains := drains_onward hstep
  cases h with
  | forced hforced =>
    rw [ht] at hforced
    contradiction
  | failed _ hmore hunread hwhy hframes hforced =>
    exact .failed hs (hdrains.append hmore) hunread hwhy hframes hforced
  | last _ hmore hdepth hcount hall hforced =>
    refine .last hs (hdrains.append hmore) hdepth hcount ?_ hforced
    rw [List.flatMap_append, hall, hdrains.flatMap_unread]

/-- A scan that finds the end of input has come to it. -/
theorem ended_scan (s : Scanner) (spaced : Bool) (heof : (s.scan spaced).current.token = .eof) :
    Ended s (s.taken spaced) (s.scan spaced) ∧ Over (s.scan spaced) := by
  fun_induction scan s spaced with
  | case1 s spaced t hstep => exact ended_found hstep heof
  | case2 s spaced after t hstep _ ih =>
    obtain ⟨hended, hover⟩ := ih heof
    rw [taken_onward hstep]
    exact ⟨hended.of_onward hstep, hover⟩

end Scan

/-! ### Staying there -/

namespace Over
variable {s t : Scanner}

/-- Whether the end has been reached depends on the sources and on whether it was forced. -/
theorem congr (h : Over s) (hinput : t.input = s.input) (hforced : t.forcedEnd = s.forcedEnd) :
    Over t := by
  cases h with
  | forced h => exact .forced (hforced.trans h)
  | last hdepth hunread hfailure =>
    rw [← hinput] at hunread hfailure
    exact .last (by rwa [depth, hinput]) hunread hfailure

theorem step_eq (h : Over s) (spaced : Bool) :
    s.step spaced = .found {s with current := ⟨.eof, .none, spaced, s.input.pos⟩} := by
  by_cases hforced : s.forcedEnd = true
  · exact step_forced hforced spaced
  cases h with
  | forced h => exact absurd h hforced
  | last hdepth hunread hfailure =>
    rw [step_leave (Bool.eq_false_iff.2 hforced) hunread]
    exact leaveEnded_last spaced hfailure hdepth

/-- At the end of input a call does nothing but find it. -/
theorem next_eq (h : Over s) : s.next = {s with current := ⟨.eof, .none, false, s.input.pos⟩} :=
  scan_found (h.step_eq false)

theorem findsEnd (h : Over s) : FindsEnd s := by
  constructor <;> rw [h.next_eq]

theorem next (h : Over s) : Over s.next := by
  rw [h.next_eq]
  exact h.congr rfl rfl

/-- With a single source at its end, or none, there is nothing below it to go on in. -/
theorem leave {input : InputStack} (h : Over s) (hpop : s.input.pop? = some input) :
    Over {s with input} := by
  cases h with
  | forced h => exact .forced h
  | last hdepth =>
    have hframes : input.frames = [] := by
      rw [frames_of_pop? hpop]
      refine List.eq_nil_of_length_eq_zero ?_
      rw [List.length_tail]
      exact Nat.sub_eq_zero_of_le hdepth
    refine .last ?_ ?_ ?_
    · simp [depth, InputStack.depth, hframes]
    · simp [InputStack.unread, InputStack.top?, hframes]
    · simp [InputStack.failure?, InputStack.top?, hframes]

/-- Without entering a source there is no way back. -/
theorem perform (h : Over s) (files : FileSystem) {o : Operation} (ho : o.enters = false) :
    Over (s.perform files o).2 := by
  have hdoes := s.does_perform files o
  generalize s.perform files o = r at hdoes
  cases hdoes with
  | next => exact h.next
  | entered henters => cases henters <;> contradiction
  | refused => exact .forced rfl
  | left hpop => exact h.leave hpop
  | forced => exact .forced rfl
  | kept _ _ hinput hforced => exact h.congr hinput hforced

end Over

/-- A forced end stays, whatever is done. -/
theorem forcedEnd_perform (files : FileSystem) {s : Scanner} (o : Operation)
    (h : s.forcedEnd = true) : (s.perform files o).2.forcedEnd = true := by
  have hdoes := s.does_perform files o
  generalize s.perform files o = r at hdoes
  cases hdoes with
  | next =>
    rw [(Over.forced h).next_eq]
    exact h
  | entered => exact h
  | refused => rfl
  | left => exact h
  | forced => rfl
  | kept _ _ _ hforced => exact hforced.trans h

/-- Nor does anything else change that, however long it goes on. -/
theorem Leads.forcedEnd {kind : Operation → Prop} {s t : Scanner} (h : Leads kind s t)
    (hs : s.forcedEnd = true) : t.forcedEnd = true :=
  h.induct (P := (·.forcedEnd = true)) (fun files o _ hu => forcedEnd_perform files o hu)
    (fun _ _ hu => hu) hs

/-- **The end of input is found where it has been reached, and for good.** A call finds it only if it
is forced, by then or before, or if all that the sources held has been read. After that, every call
finds it, reads nothing and reports nothing, until a source is entered; and if it is forced, even
after that. No other operation reads from a source either. -/
theorem end_is_final (s : Scanner) :
    (s.next.current.token = .eof → Ended s (s.taken false) s.next ∧
      ∀ t, Leads (·.enters = false) s.next t → FindsEnd t) ∧
    (s.forcedEnd = true → ∀ t, Leads (fun _ => True) s t → t.forcedEnd = true ∧ FindsEnd t ∧
      ∀ files o, Handled t.input.frames (t.perform files o).2.input.frames) := by
  constructor
  · intro heof
    obtain ⟨hended, hover⟩ := ended_scan s false heof
    refine ⟨hended, fun t ht => Over.findsEnd ?_⟩
    exact ht.induct (fun files _ ho hu => hu.perform files ho) (fun _ _ hu => hu.congr rfl rfl) hover
  · intro hforced t ht
    have hforced : t.forcedEnd = true := ht.forcedEnd hforced
    refine ⟨hforced, (Over.forced hforced).findsEnd, fun files o => ?_⟩
    by_cases ho : o = .next
    · subst ho
      have hinput : (t.perform files .next).2.input = t.input := (Over.forced hforced).findsEnd.input
      rw [hinput]
      exact .kept
    · exact t.handled_perform files ho

/-- A directory is opened. The end is forced where it would be read, and a text that is entered then is
not read either. -/
theorem end_is_final_directory :
    let s := ofInput {} (.ofFrame (.ofFile "d" .directory))
    let t := (s.next.perform (fun _ => .error .notFound) (.enterBytes none [Byte.colon])).2
    s.next.current.token = .eof ∧ Ended s (s.taken false) s.next ∧
      (∀ u, Leads (·.enters = false) s.next u → FindsEnd u) ∧
      s.next.forcedEnd = true ∧ t.depth = 2 ∧ FindsEnd t ∧
      ∀ files o, Handled t.input.frames (t.perform files o).2.input.frames := by
  intro s t
  have hnext : s.next = _ := scan_found rfl
  have heof : s.next.current.token = .eof := congrArg (·.current.token) hnext
  have hforced : s.next.forcedEnd = true := congrArg (·.forcedEnd) hnext
  have hdepth : t.depth = 2 := by
    simp only [t, hnext]
    rfl
  have hleads : Leads (fun _ => True) s.next t := Leads.refl.perform _ trivial
  obtain ⟨hended, hstays⟩ := (end_is_final s).1 heof
  obtain ⟨-, hfinds, hhandled⟩ := (end_is_final s.next).2 hforced t hleads
  exact ⟨heof, hended, hstays, hforced, hdepth, hfinds, hhandled⟩

end AsmScan.Scanner
