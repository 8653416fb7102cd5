import AsmScan.Proofs.Scanner.Call

/-! Scanners that go on alike.

What a scanner finds from now on depends on its sources, on the token found last and
on the configuration. It depends neither on what was reported before, nor on where
the source left last had come to, nor on what else is known of the last token:
scanners that are `Alike` in the former make the same calls (`Alike.calls_eq`). A
call that has passed something over already, or has reported something, carries that
into its turn and no further (`Alike.callsFrom_eq`). -/
namespace AsmScan

/-- An occurrence before which something more was passed over, or not. -/
def Occurrence.led (lead : Bool) (o : Occurrence) : Occurrence :=
  {o with spaced := lead || o.spaced}

/-- A call that has passed something more over, or not, and has reported more. -/
def Scanner.Turn.led (lead : Bool) (reported : List Message) (t : Turn) : Turn :=
  ⟨reported ++ t.reported, t.found.led lead⟩

namespace Scanner

/-- Alike in all that has a say in what is found. -/
structure Alike (s t : Scanner) : Prop where
  frames : s.input.frames = t.input.frames
  nonempty : t.input.frames ≠ []
  token : s.current.token = t.current.token
  forcedEnd : s.forcedEnd = t.forcedEnd
  config : s.config = t.config
  charmap : s.charmap = t.charmap

/-- Steps that find the same token, or none, and report the same. The first comes after something
more was passed over, or not. -/
inductive Step.Alike (lead : Bool) (s t : Scanner) : Step → Step → Prop where
  | found {s' t' : Scanner} {ms : List Message} :
      s'.Alike t' → s'.current = t'.current.led lead →
      s'.diagnostics = s.diagnostics.add ms → t'.diagnostics = t.diagnostics.add ms →
      Step.Alike lead s t (.found s') (.found t')
  | onward {s' t' : Scanner} {ms : List Message} {spaced : Bool} :
      s'.Alike t' →
      s'.diagnostics = s.diagnostics.add ms → t'.diagnostics = t.diagnostics.add ms →
      Step.Alike lead s t (.onward (lead || spaced) s') (.onward spaced t')

namespace Alike
variable {s t : Scanner}

theorem unread (h : s.Alike t) : s.input.unread = t.input.unread := by
  simp only [InputStack.unread, InputStack.top?, h.frames]

theorem failure? (h : s.Alike t) : s.input.failure? = t.input.failure? := by
  simp only [InputStack.failure?, InputStack.top?, h.frames]

theorem pos (h : s.Alike t) : s.input.pos = t.input.pos := by
  have hne := h.nonempty
  simp only [InputStack.pos, InputStack.top?, h.frames]
  cases hf : t.input.frames with
  | nil => exact absurd hf hne
  | cons => rfl

theorem atLineStart (h : s.Alike t) : s.atLineStart = t.atLineStart := by
  simp only [Scanner.atLineStart, h.token]

/-- The same change of the top frame leaves scanners alike. -/
theorem mapTop (h : s.Alike t) (f : Frame → Frame) (ds dt : Diagnostics) :
    Alike {s with input := s.input.mapTop f, diagnostics := ds}
      {t with input := t.input.mapTop f, diagnostics := dt} := by
  refine ⟨congrArg (List.modifyHead f) h.frames, ?_, h.token, h.forcedEnd, h.config, h.charmap⟩
  have hne := h.nonempty
  show t.input.frames.modifyHead f ≠ []
  cases hf : t.input.frames with
  | nil => exact absurd hf hne
  | cons => exact List.cons_ne_nil _ _

/-- Finding the same token leaves scanners alike. -/
theorem emit (h : s.Alike t) (lead spaced : Bool) (token : Token) (attr : Attr)
    {pos : Position} :
    Alike {s with current := ⟨token, attr, lead || spaced, pos⟩}
      {t with current := ⟨token, attr, spaced, pos⟩} :=
  ⟨h.frames, h.nonempty, rfl, h.forcedEnd, h.config, h.charmap⟩

theorem takeLexeme (h : s.Alike t) (lead spaced : Bool) (l : Lexeme) :
    Step.Alike lead s t (s.takeLexeme (lead || spaced) l) (t.takeLexeme spaced l) := by
  have hpast : (s.past l).Alike (t.past l) := h.mapTop _ _ _
  have hms : (s.past l).diagnostics = s.diagnostics.add (l.messages t.input.pos) := by
    rw [← h.pos]
    rfl
  have htrue : Step.Alike lead s t (.onward true (s.past l)) (.onward true (t.past l)) := by
    have : Step.Alike lead s t (.onward (lead || true) (s.past l)) (.onward true (t.past l)) :=
      .onward hpast hms rfl
    rwa [Bool.or_true] at this
  rw [takeLexeme_eq, takeLexeme_eq, h.pos, h.atLineStart]
  split
  · exact htrue
  · exact .onward hpast hms rfl
  · split
    · exact htrue
    · exact .found (hpast.emit lead spaced _ _) rfl hms rfl
  · exact .found (hpast.emit lead spaced _ _) rfl hms rfl

theorem leaveEnded (h : s.Alike t) (lead spaced : Bool) :
    Step.Alike lead s t (s.leaveEnded (lead || spaced)) (t.leaveEnded spaced) := by
  have hs (r : Scanner) : r.diagnostics = r.diagnostics.add [] := (Diagnostics.add_nil _).symm
  cases hfailure : t.input.failure? with
  | some e =>
    have hdrop := h.mapTop ({· with failure := none}) s.diagnostics t.diagnostics
    rw [leaveEnded_failed _ hfailure, leaveEnded_failed _ (h.failure?.trans hfailure), h.pos]
    refine @Step.Alike.found _ _ _ _ _ [(Problem.input e).toMessage t.input.pos] ?_ rfl ?_ ?_
    · exact ⟨hdrop.frames, hdrop.nonempty, rfl, rfl, h.config, h.charmap⟩
    · exact Diagnostics.report_eq_add ..
    · exact Diagnostics.report_eq_add ..
  | none =>
    have hfailure' := h.failure?.trans hfailure
    rcases t.depth_cases with hdepth | ⟨f, g, below, hframes⟩
    · have hdepth' : s.depth ≤ 1 := by rwa [depth, InputStack.depth, h.frames]
      rw [leaveEnded_last _ hfailure hdepth, leaveEnded_last _ hfailure' hdepth', h.pos]
      exact .found (h.emit lead spaced _ _) rfl (hs s) (hs t)
    · have hleft : Alike {s with input := ⟨g :: below, f.pos⟩} {t with input := ⟨g :: below, f.pos⟩} :=
        ⟨rfl, List.cons_ne_nil _ _, h.token, h.forcedEnd, h.config, h.charmap⟩
      rw [leaveEnded_covering _ hfailure hframes,
        leaveEnded_covering _ hfailure' (h.frames.trans hframes), h.pos, h.atLineStart]
      split
      · exact .found (hleft.emit lead spaced _ _) rfl (hs s) (hs t)
      · exact .onward hleft (hs s) (hs t)

/-- Scanners that are alike take the same step. -/
theorem step (h : s.Alike t) (lead spaced : Bool) :
    Step.Alike lead s t (s.step (lead || spaced)) (t.step spaced) := by
  by_cases hforced : t.forcedEnd = true
  · rw [step_forced hforced, step_forced (h.forcedEnd.trans hforced), h.pos]
    exact .found (h.emit lead spaced _ _) rfl (Diagnostics.add_nil _).symm
      (Diagnostics.add_nil _).symm
  have hforced : t.forcedEnd = false := Bool.eq_false_iff.2 hforced
  cases hunread : t.input.unread with
  | cons first rest =>
    rw [step_read hforced hunread, step_read (h.forcedEnd.trans hforced) (h.unread.trans hunread),
      h.config, h.charmap]
    exact h.takeLexeme lead spaced _
  | nil =>
    rw [step_leave hforced hunread, step_leave (h.forcedEnd.trans hforced) (h.unread.trans hunread)]
    exact h.leaveEnded lead spaced

/-- Scanners that are alike find the same token and report the same. -/
theorem scan (h : s.Alike t) (lead spaced : Bool) :
    Step.Alike lead s t (.found (s.scan (lead || spaced))) (.found (t.scan spaced)) := by
  fun_induction Scanner.scan t spaced generalizing s with
  | case1 t spaced t' ht =>
    have hstep := h.step lead spaced
    rw [ht] at hstep
    cases hs : s.step (lead || spaced) with
    | found s' =>
      rw [hs] at hstep
      rwa [scan_found hs]
    | onward after s' =>
      rw [hs] at hstep
      cases hstep
  | case2 t spaced after t' ht _ ih =>
    have hstep := h.step lead spaced
    rw [ht] at hstep
    cases hs : s.step (lead || spaced) with
    | found s' =>
      rw [hs] at hstep
      cases hstep
    | onward after' s' =>
      rw [hs] at hstep
      rw [scan_onward hs]
      cases hstep with
      | @onward _ _ ms _ halike hsd htd =>
        cases ih halike with
        | @found _ _ more halike' hcurrent hsd' htd' =>
          refine @Step.Alike.found _ _ _ _ _ (ms ++ more) halike' hcurrent ?_ ?_
          · rw [hsd', hsd, Diagnostics.add_add]
          · rw [htd', htd, Diagnostics.add_add]

theorem next (h : s.Alike t) : s.next.Alike t.next := by
  cases h.scan false false with
  | found halike => exact halike

theorem turn_eq (h : s.Alike t) : s.turn = t.turn := by
  cases h.scan false false with
  | found _ hcurrent hsd htd =>
    have hfound : s.next.current = t.next.current := hcurrent
    have hreported : s.next.diagnostics.since s.diagnostics.count =
        t.next.diagnostics.since t.diagnostics.count :=
      (Diagnostics.since_of_eq hsd).trans (Diagnostics.since_of_eq htd).symm
    rw [turn, turn, hfound, hreported]

/-- **Scanners that are alike make the same calls.** -/
theorem calls_eq (h : s.Alike t) (n : Nat) : s.calls n = t.calls n := by
  induction n generalizing s t with
  | zero => rfl
  | succ n ih => rw [calls, calls, h.turn_eq, ih h.next]

theorem after (h : s.Alike t) (n : Nat) : (s.after n).Alike (t.after n) := by
  induction n generalizing s t with
  | zero => exact h
  | succ n ih => exact ih h.next

/-- What a call has passed over and reported so far goes to its own turn. -/
theorem callsFrom_eq (h : s.Alike t) (lead : Bool) (reported : List Message) (n : Nat) :
    s.callsFrom lead reported n = (t.calls n).modifyHead (Turn.led lead reported) := by
  cases n with
  | zero => rfl
  | succ n =>
    have hscan := h.scan lead false
    rw [Bool.or_false] at hscan
    cases hscan with
    | found halike hcurrent hsd htd =>
      have hmore : (s.scan lead).calls n = t.next.calls n := halike.calls_eq n
      have hreported : t.next.diagnostics.since t.diagnostics.count = _ :=
        Diagnostics.since_of_eq htd
      rw [callsFrom, calls, List.modifyHead_cons, Diagnostics.since_of_eq hsd, hmore, hcurrent,
        Turn.led, turn, hreported]
      rfl

theorem afterFrom (h : s.Alike t) (lead : Bool) (n : Nat) :
    (s.afterFrom lead n).Alike (t.after n) := by
  cases n with
  | zero => exact h
  | succ n =>
    have hscan := h.scan lead false
    rw [Bool.or_false] at hscan
    cases hscan with
    | found halike => exact halike.after n

end Alike

end Scanner
end AsmScan
