import AsmScan.Proofs.Scanner.Ending
import AsmScan.Proofs.Scanner.Refusal

/-! Sources that cannot be read.

A source can be opened, and then its first read fails. What is entered above it is
scanned as it would be above a source that is merely empty: step by step the two scans
agree on all that lies above (`step_layered`). The difference is what happens where the
source is reached: a call does not leave it but ends the scan there, with a message
about the failure. So the failure is not lost, and it is not taken for the end
(`failure_ends_scan`). -/
namespace AsmScan

/-- The source as if all of it had been read. -/
def Frame.mended (f : Frame) : Frame := {f with failure := none}

namespace Scanner

/-- The scanner with other sources, some of them above the others. -/
def layered (s : Scanner) (above below : List Frame) : Scanner :=
  {s with input := {s.input with frames := above ++ below}}

theorem layered_of_frames {s : Scanner} {above below : List Frame}
    (h : s.input.frames = above ++ below) : s.layered above below = s := by
  rw [layered, ← h]

/-! ### What lies below the top source -/

/-- Steps that come to the same, but for what lies below. -/
inductive Step.Layered (x y : List Frame) : Step → Step → Prop where
  | found (t : Scanner) (above : List Frame) :
      Step.Layered x y (.found (t.layered above x)) (.found (t.layered above y))
  | onward (after : Bool) (t : Scanner) (above : List Frame) :
      Step.Layered x y (.onward after (t.layered above x)) (.onward after (t.layered above y))

section Below
variable {x y : List Frame}

theorem takeLexeme_layered (s : Scanner) (spaced : Bool) (g : Frame) (above : List Frame) (l : Lexeme) :
    Step.Layered x y ((s.layered (g :: above) x).takeLexeme spaced l)
      ((s.layered (g :: above) y).takeLexeme spaced l) := by
  let t : Scanner := {s with diagnostics := s.diagnostics.add (l.messages g.pos)}
  have hx : (s.layered (g :: above) x).past l = t.layered (g.advance l.size :: above) x := rfl
  have hy : (s.layered (g :: above) y).past l = t.layered (g.advance l.size :: above) y := rfl
  have hfound (o : Occurrence) : Step.Layered x y
      (.found {t.layered (g.advance l.size :: above) x with current := o})
      (.found {t.layered (g.advance l.size :: above) y with current := o}) :=
    .found {t with current := o} _
  rw [takeLexeme_eq, takeLexeme_eq, hx, hy]
  split
  · exact .onward true t _
  · exact .onward spaced t _
  · show Step.Layered x y (if s.atLineStart then _ else _) (if s.atLineStart then _ else _)
    split
    · exact .onward true t _
    · exact hfound _
  · exact hfound _

/-- A source is left where another lies below it, and which one that is has no say. -/
theorem leaveEnded_layered (s : Scanner) (spaced : Bool) (g : Frame) (above : List Frame)
    (hx : x ≠ []) (hy : y ≠ []) :
    Step.Layered x y ((s.layered (g :: above) x).leaveEnded spaced)
      ((s.layered (g :: above) y).leaveEnded spaced) := by
  cases hpending : g.pending? with
  | none =>
    have hleave (z : List Frame) (hz : z ≠ []) :
        (s.layered (g :: above) z).leaveEnded spaced =
          let t := {s with input := ⟨above ++ z, g.pos⟩}
          if g.isFile && !s.atLineStart then t.emit .separator .none spaced g.pos
          else .onward spaced t := by
      obtain ⟨h, more, hmore⟩ : ∃ h more, above ++ z = h :: more :=
        List.exists_cons_of_ne_nil (List.append_ne_nil_of_right_ne_nil above hz)
      have hframes : (s.layered (g :: above) z).input.frames = g :: h :: more :=
        congrArg (g :: ·) hmore
      have hnone : (s.layered (g :: above) z).input.failure? = none := by
        show g.pending?.map _ = none
        rw [hpending, Option.map_none]
      rw [leaveEnded_covering spaced hnone hframes, hmore]
      rfl
    rw [hleave x hx, hleave y hy]
    dsimp only
    split
    · exact .found {s with input.last := g.pos, current := ⟨.separator, .none, spaced, g.pos⟩} above
    · exact .onward spaced {s with input.last := g.pos} above
  | some why =>
    have hsome (z : List Frame) :
        (s.layered (g :: above) z).input.failure? = some (.unreadable g.name why) := by
      show g.pending?.map _ = _
      rw [hpending, Option.map_some]
    rw [leaveEnded_failed spaced (hsome x), leaveEnded_failed spaced (hsome y)]
    exact .found
      {s.fail (.unreadable g.name why) g.pos with current := ⟨.eof, .none, spaced, g.pos⟩}
      (g.mended :: above)

/-- **What lies below the top source has no say in a step.** -/
theorem step_layered (s : Scanner) (spaced : Bool) (g : Frame) (above : List Frame) (hx : x ≠ [])
    (hy : y ≠ []) :
    Step.Layered x y ((s.layered (g :: above) x).step spaced) ((s.layered (g :: above) y).step spaced) := by
  have hstep (z : List Frame) := step_forced (s := s.layered (g :: above) z)
  by_cases hforced : s.forcedEnd = true
  · rw [hstep x hforced, hstep y hforced]
    exact .found {s with current := ⟨.eof, .none, spaced, g.pos⟩} (g :: above)
  have hforced : s.forcedEnd = false := Bool.eq_false_iff.2 hforced
  cases hunread : g.unread with
  | cons first rest =>
    have hread (z : List Frame) := step_read (s := s.layered (g :: above) z) hforced hunread spaced
    rw [hread x, hread y]
    exact takeLexeme_layered s spaced g above _
  | nil =>
    have hleave (z : List Frame) := step_leave (s := s.layered (g :: above) z) hforced hunread spaced
    rw [hleave x, hleave y]
    exact leaveEnded_layered s spaced g above hx hy

end Below

/-! ### Reaching a source -/

/-- What a call comes to before it finds something, and whether it has passed something over. -/
inductive ComesTo : Scanner → Bool → Scanner → Bool → Prop where
  | refl {s : Scanner} {spaced : Bool} : ComesTo s spaced s spaced
  | onward {s t u : Scanner} {spaced between after : Bool} :
      s.step spaced = .onward between t → ComesTo t between u after → ComesTo s spaced u after

/-- A call comes to the end of a source that is on top by then. -/
def Reaches (s : Scanner) (spaced : Bool) (f : Frame) (below : List Frame) : Prop :=
  ∃ t after, s.ComesTo spaced t after ∧ t.AtEnd f below

section Reaching
variable {s t : Scanner} {spaced after : Bool} {f : Frame} {above below x y : List Frame}
  {why : ReadFailure}

theorem ComesTo.scan_eq (h : s.ComesTo spaced t after) : s.scan spaced = t.scan after := by
  induction h with
  | refl => rfl
  | onward hstep _ ih => rw [scan_onward hstep, ih]

/-- What is reported on the way are errors. -/
theorem ComesTo.exists_errors (h : s.ComesTo spaced t after) :
    ∃ errors, t.diagnostics = s.diagnostics.add errors ∧ ∀ m ∈ errors, m.severity = .error := by
  induction h with
  | refl => exact ⟨[], (Diagnostics.add_nil _).symm, List.forall_mem_nil _⟩
  | onward hstep _ ih =>
    obtain ⟨new, hnew⟩ := reports_onward hstep
    obtain ⟨more, hmore, herror⟩ := ih
    obtain ⟨-, -, -, -, hforced⟩ := kept_of_onward hstep
    refine ⟨new ++ more, by rw [hmore, hnew.diagnostics, Diagnostics.add_add], fun m hm => ?_⟩
    exact (List.mem_append.1 hm).elim (hnew.severity_eq hforced m) (herror m)

theorem unread_of_pending (hf : f.pending? = some why) : f.unread = [] ∧ f.failure = some why := by
  unfold Frame.pending? at hf
  split at hf
  next hempty => exact ⟨List.isEmpty_iff.1 hempty, hf⟩
  next => contradiction

/-- The scan ends where a source is reached that could not be read. -/
theorem AtEnd.step_eq (h : s.AtEnd f below) (hwhy : f.failure = some why) :
    s.step spaced = .found
      {fail {s with input := s.input.dropFailure} (.unreadable f.name why) f.pos with
        current := ⟨.eof, .none, spaced, f.pos⟩} := by
  have hunread : s.input.unread = [] := (InputStack.unread_of_frames h.frames).trans h.unread
  have hfailure : s.input.failure? = some (.unreadable f.name why) := by
    rw [InputStack.failure?_of_frames h.frames, Frame.pending?, h.unread, hwhy]
    rfl
  rw [step_leave h.unforced hunread, leaveEnded_failed spaced hfailure,
    InputStack.pos_of_frames h.frames]

/-- Such a source is not left. -/
theorem step_ne_onward (hs : s.input.frames = f :: below) (hf : f.pending? = some why) :
    s.step spaced ≠ .onward after t := by
  obtain ⟨hunread, hwhy⟩ := unread_of_pending hf
  intro hstep
  cases goes_onward hstep with
  | passed hl =>
    obtain ⟨first, rest, g, more, hg, hmore, -⟩ := hl.exists_frame
    rw [hs] at hg
    cases hg
    rw [hunread] at hmore
    contradiction
  | resumed hend hread =>
    have hg := hend.frames
    rw [hs] at hg
    cases hg
    rw [hwhy] at hread
    contradiction

/-- A step above it that finds nothing is the same above any source. -/
theorem onward_layered (hf : f.pending? = some why) (hy : y ≠ [])
    (h : (s.layered above (f :: below)).step spaced = .onward after t) :
    ∃ (u : Scanner) (above' : List Frame), t = u.layered above' (f :: below) ∧
      (s.layered above y).step spaced = .onward after (u.layered above' y) := by
  cases above with
  | nil => exact absurd h (step_ne_onward rfl hf)
  | cons g above =>
    have hlayered := step_layered s spaced g above (List.cons_ne_nil f below) hy
    rw [h] at hlayered
    generalize hother : (s.layered (g :: above) y).step spaced = other at hlayered ⊢
    cases hlayered with
    | onward _ u above' => exact ⟨u, above', rfl, rfl⟩

/-- A step that finds something is the same if it is above it. -/
theorem found_layered (hf : f.pending? = some why)
    (hend : ¬ (s.layered above (f :: below)).AtEnd f below)
    (h : (s.layered above (f :: below)).step spaced = .found t) :
    ∃ (u : Scanner) (above' : List Frame), t = u.layered above' (f :: below) ∧
      (s.layered above [f.mended]).step spaced = .found (u.layered above' [f.mended]) := by
  cases above with
  | nil =>
    -- The source is on top and its end is not reached, so the end of the scan was forced before.
    have hforced : s.forcedEnd = true := by
      by_contra hnot
      exact hend ⟨Bool.eq_false_iff.2 hnot, rfl, (unread_of_pending hf).1⟩
    rw [(Over.forced hforced : (s.layered [] (f :: below)).Over).step_eq] at h
    cases h
    exact ⟨{s with current := ⟨.eof, .none, spaced, f.pos⟩}, [], rfl,
      (Over.forced hforced : (s.layered [] [f.mended]).Over).step_eq spaced⟩
  | cons g above =>
    have hlayered := step_layered s spaced g above (List.cons_ne_nil f below)
      (List.cons_ne_nil f.mended [])
    rw [h] at hlayered
    generalize hother : (s.layered (g :: above) [f.mended]).step spaced = other at hlayered ⊢
    cases hlayered with
    | found u above' => exact ⟨u, above', rfl, rfl⟩

/-- The way of a call is the same above any source. -/
theorem comesTo_layered (hf : f.pending? = some why) (hy : y ≠ [])
    (h : (s.layered above (f :: below)).ComesTo spaced t after) :
    ∃ (u : Scanner) (above' : List Frame), t = u.layered above' (f :: below) ∧
      (s.layered above y).ComesTo spaced (u.layered above' y) after := by
  generalize hs : s.layered above (f :: below) = s' at h
  induction h generalizing s above with
  | refl => exact ⟨s, above, hs.symm, .refl⟩
  | onward hstep _ ih =>
    subst hs
    obtain ⟨v, between, rfl, hother⟩ := onward_layered hf hy hstep
    obtain ⟨u, above', ht, hcomes⟩ := ih rfl
    exact ⟨u, above', ht, .onward hother hcomes⟩

/-- A call that does not reach it finds the same above a source that was read. -/
theorem scan_layered (hf : f.pending? = some why)
    (h : ¬ (s.layered above (f :: below)).Reaches spaced f below) :
    ∃ (t : Scanner) (above' : List Frame),
      (s.layered above (f :: below)).scan spaced = t.layered above' (f :: below) ∧
      (s.layered above [f.mended]).scan spaced = t.layered above' [f.mended] := by
  generalize hs : s.layered above (f :: below) = s' at h ⊢
  -- The induction is on the scan above the unread source; above the mended one it takes the same steps.
  fun_induction scan s' spaced generalizing s above with
  | case1 s' spaced t hstep =>
    subst hs
    obtain ⟨u, above', ht, hother⟩ := found_layered hf (fun hend => h ⟨_, _, .refl, hend⟩) hstep
    exact ⟨u, above', ht, scan_found hother⟩
  | case2 s' spaced after t hstep _ ih =>
    subst hs
    obtain ⟨v, between, rfl, hother⟩ := onward_layered hf (List.cons_ne_nil f.mended []) hstep
    have hlater : ¬ (v.layered between (f :: below)).Reaches after f below := by
      rintro ⟨u, last, hcomes, hend⟩
      exact h ⟨u, last, .onward hstep hcomes, hend⟩
    obtain ⟨u, above', hscan, hmended⟩ := ih rfl hlater
    exact ⟨u, above', hscan, (scan_onward hother).trans hmended⟩

end Reaching

/-! ### Where a source cannot be read -/

/-- What a call comes to that reaches a source whose first read failed. Above it all is scanned as it
is above the mended source, and then the failure ends the scan for good. -/
structure Breaks (s mended : Scanner) (f : Frame) (below : List Frame) (why : ReadFailure) :
    Prop where
  found : s.next.current = ⟨.eof, .none, mended.next.current.spaced, f.pos⟩
  foundMended : mended.next.current = s.next.current
  /-- What lies above it may have errors, which leave the scan running. -/
  errors : ∃ errors, mended.next.diagnostics = s.diagnostics.add errors ∧
    ∀ m ∈ errors, m.severity = .error
  reported : s.next.diagnostics = mended.next.diagnostics.report
    ⟨.fatal, .unreadable, f.pos, s!"cannot read '{f.name}': {why}"⟩
  /-- It is not left. -/
  frames : s.next.input.frames = f.mended :: below
  forcedEnd : s.next.forcedEnd = true
  final : ∀ t, Leads (fun _ => True) s.next t → FindsEnd t

/-- A source could not be read, or the end is forced already. -/
def Broken (s : Scanner) : Prop :=
  s.forcedEnd = true ∨ ∃ f ∈ s.input.frames, f.pending?.isSome

section Breaking
variable {s t : Scanner} {f : Frame} {above below : List Frame} {why : ReadFailure}

theorem breaks_of_reaches (hs : s.input.frames = above ++ f :: below) (hf : f.pending? = some why)
    (h : s.Reaches false f below) : Breaks s (s.layered above [f.mended]) f below why := by
  obtain ⟨t, after, hcomes, hend⟩ := h
  obtain ⟨u, above', rfl, hmended⟩ := comesTo_layered hf (List.cons_ne_nil f.mended [])
    ((layered_of_frames hs).symm ▸ hcomes)
  obtain rfl : above' = [] := List.append_left_eq_self.1 hend.frames
  have hread : (u.layered [] [f.mended]).input.failure? = none := by
    show f.mended.pending?.map _ = none
    rw [Frame.pending?, show f.mended.failure = none from rfl, ite_self, Option.map_none]
  have hover : (u.layered [] [f.mended]).Over := .last (Nat.le_refl 1) hend.unread hread
  have hnext : s.next = _ :=
    hcomes.scan_eq.trans (scan_found (hend.step_eq (unread_of_pending hf).2))
  have hother : (s.layered above [f.mended]).next = _ :=
    hmended.scan_eq.trans (scan_found (hover.step_eq after))
  have hforced : s.next.forcedEnd = true := congrArg (·.forcedEnd) hnext
  constructor
  case found => rw [hnext, hother]
  case foundMended =>
    rw [hnext, hother]
    rfl
  case errors =>
    rw [hother]
    exact hcomes.exists_errors
  case reported =>
    rw [hnext, hother]
    rfl
  case frames =>
    rw [hnext]
    rfl
  case forcedEnd => exact hforced
  case final => exact fun t ht => (Over.forced (ht.forcedEnd hforced)).findsEnd

/-- A call that does not reach it leaves it where it is, and finds the same as above the mended
source. -/
theorem next_layered (hs : s.input.frames = above ++ f :: below) (hf : f.pending? = some why)
    (h : ¬ s.Reaches false f below) :
    ∃ (t : Scanner) (above' : List Frame), s.next = t.layered above' (f :: below) ∧
      (s.layered above [f.mended]).next = t.layered above' [f.mended] := by
  have hsame := layered_of_frames hs
  obtain ⟨t, above', hscan, hmended⟩ := scan_layered hf (hsame.symm ▸ h)
  exact ⟨t, above', hsame ▸ hscan, hmended⟩

theorem reaches_of_top (hs : s.input.frames = f :: below) (hf : f.pending? = some why)
    (hforced : s.forcedEnd = false) : s.Reaches false f below :=
  ⟨s, false, .refl, hforced, hs, (unread_of_pending hf).1⟩

/-- No other operation touches it, but for the one that leaves it. -/
theorem frames_layered (hs : s.input.frames = above ++ f :: below) (files : FileSystem)
    {o : Operation} (ho : o ≠ .next) :
    (o = .leave ∧ above = []) ∨
      ∃ above', (s.perform files o).2.input.frames = above' ++ f :: below := by
  have hdoes := s.does_perform files o
  generalize s.perform files o = r at hdoes
  cases hdoes with
  | next => exact absurd rfl ho
  | @entered _ g => exact .inr ⟨g :: above, congrArg (g :: ·) hs⟩
  | refused | forced => exact .inr ⟨above, hs⟩
  | left hpop =>
    cases above with
    | nil => exact .inl ⟨rfl, rfl⟩
    | cons g above =>
      refine .inr ⟨above, ?_⟩
      rw [frames_of_pop? hpop, hs]
      rfl
  | kept _ _ hinput => exact .inr ⟨above, hinput ▸ hs⟩

theorem broken_perform (files : FileSystem) {o : Operation} (ho : o ≠ .leave) (h : Broken s) :
    Broken (s.perform files o).2 := by
  rcases h with hforced | ⟨f, hmem, hf⟩
  · exact .inl (forcedEnd_perform files o hforced)
  · obtain ⟨above, below, hs⟩ := List.append_of_mem hmem
    obtain ⟨why, hwhy⟩ := Option.isSome_iff_exists.1 hf
    have hkept {u : Scanner} {above' : List Frame} (hu : u.input.frames = above' ++ f :: below) :
        Broken u := .inr ⟨f, by simp [hu], hf⟩
    by_cases hnext : o = .next
    · subst hnext
      by_cases hreaches : s.Reaches false f below
      · exact .inl (breaks_of_reaches hs hwhy hreaches).forcedEnd
      · obtain ⟨t, above', ht, -⟩ := next_layered hs hwhy hreaches
        exact hkept (congrArg (·.input.frames) ht)
    · rcases frames_layered hs files hnext with ⟨hleave, -⟩ | ⟨above', hframes⟩
      · exact absurd hleave ho
      · exact hkept hframes

/-- A source that could not be read is not taken for the end. -/
theorem forcedEnd_of_broken (h : Broken s) (heof : s.next.current.token = .eof) :
    s.next.forcedEnd = true := by
  obtain ⟨-, hover⟩ := ended_scan s false heof
  rcases broken_perform (fun _ => .error .notFound) (o := .next) nofun h with hforced | hpending
  · exact hforced
  -- Otherwise the source is still there, and alone at the end: but then its failure would be pending.
  cases hover with
  | forced hforced => exact hforced
  | last hdepth hunread hfailure =>
    obtain ⟨f, hmem, hf⟩ := hpending
    obtain ⟨g, hg⟩ := List.length_eq_one_iff.1
      (Nat.le_antisymm hdepth (List.length_pos_of_mem hmem))
    rw [InputStack.failure?_of_frames hg] at hfailure
    obtain rfl : f = g := List.mem_singleton.1 (hg ▸ hmem)
    have hnone : f.pending? = none := Option.map_eq_none_iff.1 hfailure
    rw [hnone] at hf
    contradiction

end Breaking

/-- **A failure to read is neither lost nor taken for the end.** What lies above a source whose first
read failed is scanned as above the mended source. The call that reaches it ends the scan, with one
fatal message about the failure, and does not leave it; a call that does not reach it leaves it as it
is. Only the caller can leave it, once it is on top. Unless he does, or forces the end himself, the
end of input is not found without a fatal message. -/
theorem failure_ends_scan {s : Scanner} {above below : List Frame} {f : Frame} {why : ReadFailure}
    (hs : s.input.frames = above ++ f :: below) (hf : f.pending? = some why) :
    let mended := s.layered above [f.mended]
    (s.Reaches false f below → Breaks s mended f below why) ∧
    (¬ s.Reaches false f below → ∃ (t : Scanner) (above' : List Frame),
      s.next = t.layered above' (f :: below) ∧ mended.next = t.layered above' [f.mended]) ∧
    (above = [] → s.forcedEnd = false → s.Reaches false f below) ∧
    (∀ files o, o ≠ .next → (o = .leave ∧ above = []) ∨
      ∃ above', (s.perform files o).2.input.frames = above' ++ f :: below) ∧
    ∀ s₀ t, Opened s₀ → Leads (· ≠ .forceEnd) s₀ s →
      Leads (fun o => o ≠ .leave ∧ o ≠ .forceEnd) s t →
      t.next.current.token = .eof → t.next.diagnostics.hasFatal = true := by
  refine ⟨breaks_of_reaches hs hf, next_layered hs hf, ?_, fun files o => frames_layered hs files, ?_⟩
  · rintro rfl hforced
    exact reaches_of_top hs hf hforced
  · intro s₀ t hopened hbefore hleads heof
    have hbroken : Broken t := by
      refine hleads.induct (fun files _ ho hu => broken_perform files ho.1 hu) (fun _ _ hu => hu) ?_
      exact .inr ⟨f, by simp [hs], by simp [hf]⟩
    have hnext : Leads (· ≠ .forceEnd) t t.next :=
      Leads.refl.perform (fun _ => .error .notFound) (o := .next) nofun
    have hall := (hbefore.trans (hleads.mono fun _ => And.right)).trans hnext
    rw [← forcedEnd_eq_hasFatal hopened hall]
    exact forcedEnd_of_broken hbroken heof

/-- A directory is entered in the middle of a text, and above it a text of one blank. -/
theorem failure_ends_scan_directory :
    let files : FileSystem := fun _ => .ok .directory
    let s₀ := ofBytes {} "t.s" [Byte.colon, Byte.comma]
    let entered := (s₀.next.perform files (.enterFile "d")).2
    let s := (entered.perform files (.enterBytes none [Byte.space])).2
    let f := Frame.ofFile "d" .directory
    let above := [Frame.ofBytes "d" .start [Byte.space]]
    s₀.next.current.token = .colon ∧ s₀.next.input.unread = [Byte.comma] ∧
      s.input.frames = above ++ f :: s₀.next.input.frames ∧ f.pending? = some .isDirectory ∧
      s.Reaches false f s₀.next.input.frames ∧
      Breaks s (s.layered above [f.mended]) f s₀.next.input.frames .isDirectory ∧
      s.next.current.token = .eof ∧ s.next.diagnostics.hasFatal = true := by
  intro files s₀ entered s f above
  have hnext : s₀.next = _ := scan_found rfl
  have hs : s.input.frames = above ++ f :: s₀.next.input.frames := by
    show (((s₀.next.perform files _).2.perform files _).2).input.frames = _
    rw [hnext]
    rfl
  have hreaches : s.Reaches false f s₀.next.input.frames := by
    show (((s₀.next.perform files _).2.perform files _).2).Reaches false f _
    rw [hnext]
    exact ⟨_, true, .onward rfl (.onward rfl .refl), rfl, rfl, rfl⟩
  have hf : f.pending? = some .isDirectory := rfl
  obtain ⟨hbreaks, -, -, -, hfatal⟩ := failure_ends_scan hs hf
  have hbreaks := hbreaks hreaches
  have heof : s.next.current.token = .eof := congrArg (·.token) hbreaks.found
  have hleads : Leads (· ≠ .forceEnd) s₀ s :=
    ((Leads.refl.perform files (o := .next) nofun).perform files nofun).perform files nofun
  refine ⟨?_, ?_, hs, hf, hreaches, hbreaks, heof, hfatal s₀ s (.ofBytes ..) hleads .refl heof⟩
  · rw [hnext]
  · rw [hnext]
    rfl

end Scanner
end AsmScan
