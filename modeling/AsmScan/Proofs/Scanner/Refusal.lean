import AsmScan.Proofs.Lexeme.Mild
import AsmScan.Proofs.Scanner.Intake
import AsmScan.Proofs.Scanner.Run

/-! Sources that are not entered.

A source is refused where too many are nested, or where a file cannot be opened, and
then the scan ends: the one message about it is fatal, and nothing else changes. What a
scanner has reported and whether its end was forced go together step by step
(`Reports`), for a source that cannot be read on ends the scan in the same way, and
nothing that is wrong with a text does. So whatever a caller does, a fatal message and a
forced end come together, unless he forces the end himself (`refused_of_reachable`). -/
namespace AsmScan

theorem Message.isError_ofKind (kind : ProblemKind) (pos : Position) (text : String) :
    (Message.ofKind kind pos text).isError = true := by
  cases kind <;> rfl

namespace Scanner

/-! ### Messages and the end -/

/-- What was reported on the way from a scanner to another. The end was forced if one of the messages
is fatal, and otherwise only if it had been before. -/
structure Reports (s : Scanner) (new : List Message) (t : Scanner) : Prop where
  diagnostics : t.diagnostics = s.diagnostics.add new
  isError : ∀ m ∈ new, m.isError = true
  forcedEnd : t.forcedEnd = (s.forcedEnd || new.any Message.isFatal)

section Reporting
variable {s t u : Scanner} {new more : List Message} {spaced after : Bool}

/-- Errors leave the scan running. -/
theorem reports_errors (hdiagnostics : t.diagnostics = s.diagnostics.add new)
    (herror : ∀ m ∈ new, m.severity = .error) (hforced : t.forcedEnd = s.forcedEnd) :
    Reports s new t := by
  have hfatal : new.any Message.isFatal = false :=
    List.any_eq_false.2 fun m hm => by simp [Message.isFatal, herror m hm]
  refine ⟨hdiagnostics, fun m hm => ?_, ?_⟩
  · rw [Message.isError, herror m hm]
    rfl
  · rw [hforced, hfatal, Bool.or_false]

theorem reports_nothing (hdiagnostics : t.diagnostics = s.diagnostics)
    (hforced : t.forcedEnd = s.forcedEnd) : Reports s [] t :=
  reports_errors (by rw [hdiagnostics, Diagnostics.add_nil])
    (fun _ hm => absurd hm List.not_mem_nil) hforced

theorem Reports.trans (h : Reports s new t) (hmore : Reports t more u) :
    Reports s (new ++ more) u where
  diagnostics := by rw [hmore.diagnostics, h.diagnostics, Diagnostics.add_add]
  isError := fun m hm => (List.mem_append.1 hm).elim (h.isError m) (hmore.isError m)
  forcedEnd := by rw [hmore.forcedEnd, h.forcedEnd, List.any_append, Bool.or_assoc]

/-- Where the end is not forced, what was reported are errors and nothing worse. -/
theorem Reports.severity_eq (h : Reports s new t) (ht : t.forcedEnd = false) :
    ∀ m ∈ new, m.severity = .error := by
  intro m hm
  have hfatal : m.isFatal = false := by
    have hforced := h.forcedEnd
    rw [ht, eq_comm, Bool.or_eq_false_iff] at hforced
    simpa using List.any_eq_false.1 hforced.2 m hm
  have herror := h.isError m hm
  unfold Message.isFatal at hfatal
  unfold Message.isError at herror
  cases hseverity : m.severity with
  | error => rfl
  | normal | warning | fatal => simp_all [Severity.rank]

/-- A source that cannot be read or entered ends the scan. -/
theorem reports_fatal {e : InputError} {pos : Position}
    (hdiagnostics : t.diagnostics = s.diagnostics.report ((Problem.input e).toMessage pos))
    (hforced : t.forcedEnd = true) : Reports s [(Problem.input e).toMessage pos] t := by
  have hfatal : ((Problem.input e).toMessage pos).isFatal = true := by cases e <;> rfl
  refine ⟨hdiagnostics.trans (Diagnostics.report_eq_add ..), fun m hm => ?_, ?_⟩
  · rw [List.mem_singleton.1 hm]
    exact Message.isError_ofKind ..
  · rw [hforced, List.any_cons, hfatal, Bool.true_or, Bool.or_true]

/-- What is wrong with a lexeme leaves the scan running. -/
theorem reports_past {l : Lexeme} (h : s.Meets l) (o : Occurrence) :
    Reports s (l.messages s.input.pos) {s.past l with current := o} := by
  obtain ⟨first, rest, -, rfl⟩ := h.read
  refine reports_errors rfl (fun m hm => ?_) rfl
  obtain ⟨f, hf, rfl⟩ := List.mem_map.1 hm
  exact Lexeme.mild_read s.config s.charmap first rest f hf

theorem reports_onward (h : s.step spaced = .onward after t) : ∃ new, Reports s new t := by
  cases goes_onward h with
  | passed hl => exact ⟨_, reports_past hl s.current⟩
  | resumed => exact ⟨[], reports_nothing rfl rfl⟩

theorem reports_found (h : s.step spaced = .found t) : ∃ new, Reports s new t := by
  cases goes_found h with
  | forced => exact ⟨[], reports_nothing rfl rfl⟩
  | token hl => exact ⟨_, reports_past hl _⟩
  | lineEnd hl => exact ⟨_, reports_past hl _⟩
  | failed => exact ⟨_, reports_fatal rfl rfl⟩
  | ended => exact ⟨[], reports_nothing rfl rfl⟩
  | fileEnd => exact ⟨[], reports_nothing rfl rfl⟩

theorem reports_scan (s : Scanner) (spaced : Bool) : ∃ new, Reports s new (s.scan spaced) := by
  fun_induction scan s spaced with
  | case1 s spaced t hstep => exact reports_found hstep
  | case2 s spaced after t hstep _ ih =>
    obtain ⟨new, hnew⟩ := reports_onward hstep
    obtain ⟨more, hmore⟩ := ih
    exact ⟨new ++ more, hnew.trans hmore⟩

/-- A scan reports what its calls do. -/
theorem reports_turns (s : Scanner) :
    Reports s (s.turns.1.flatMap Turn.reported) s.turns.2 := by
  fun_induction turns s with
  | case1 s count after turn heof =>
    obtain ⟨new, hnew⟩ := s.reports_scan false
    have hreported : turn.reported = new := Diagnostics.since_of_eq hnew.diagnostics
    rw [List.flatMap_singleton, hreported]
    exact hnew
  | case2 s count after turn heof _ more last hmore ih =>
    obtain ⟨new, hnew⟩ := s.reports_scan false
    have hreported : turn.reported = new := Diagnostics.since_of_eq hnew.diagnostics
    rw [hmore] at ih
    rw [List.flatMap_cons, hreported]
    exact hnew.trans ih

/-- Every operation but a forced end reports what ends the scan. -/
theorem reports_perform (files : FileSystem) (s : Scanner) {o : Operation} (ho : o ≠ .forceEnd) :
    ∃ new, Reports s new (s.perform files o).2 := by
  have hdoes := s.does_perform files o
  generalize s.perform files o = r at hdoes
  cases hdoes with
  | next => exact s.reports_scan false
  | entered => exact ⟨[], reports_nothing rfl rfl⟩
  | refused => exact ⟨_, reports_fatal rfl rfl⟩
  | left => exact ⟨[], reports_nothing rfl rfl⟩
  | forced => contradiction
  | kept _ _ _ hforced _ hdiagnostics =>
    rcases hdiagnostics with hd | hd
    · exact ⟨[], reports_nothing hd hforced⟩
    · refine ⟨_, reports_errors (hd.trans (Diagnostics.report_eq_add ..)) (fun m hm => ?_) hforced⟩
      rw [List.mem_singleton.1 hm]
      rfl

end Reporting

/-! ### Invariants -/

theorem Opened.empty {s : Scanner} (h : Opened s) :
    s.diagnostics = .empty ∧ s.forcedEnd = false ∧ s.depth = 1 := by
  obtain ⟨config, f, rfl⟩ := h.exists_frame
  exact ⟨rfl, rfl, rfl⟩

/-- What is reported is about errors or worse. -/
theorem isError_perform (files : FileSystem) {s : Scanner} (o : Operation)
    (h : ∀ m ∈ s.diagnostics.messages, m.isError = true) :
    ∀ m ∈ (s.perform files o).2.diagnostics.messages, m.isError = true := by
  by_cases ho : o = .forceEnd
  · -- The end is forced without a message.
    subst ho
    exact h
  · obtain ⟨new, hnew⟩ := s.reports_perform files ho
    rw [hnew.diagnostics]
    intro m hm
    rcases Array.mem_append.1 hm with hm | hm
    · exact h m hm
    · exact hnew.isError m (by simpa using hm)

theorem Reachable.isError {s : Scanner} (h : Reachable s) :
    ∀ m ∈ s.diagnostics.messages, m.isError = true := by
  obtain ⟨s₀, hopened, hleads⟩ := h.exists_opened
  refine hleads.induct (P := fun s => ∀ m ∈ s.diagnostics.messages, m.isError = true)
    (fun files o _ ht => isError_perform files o ht) (fun _ _ ht => ht) ?_
  rw [hopened.empty.1]
  exact fun m hm => absurd hm (Array.not_mem_empty m)

/-- All messages are counted as errors. -/
theorem Reachable.errorCount_eq {s : Scanner} (h : Reachable s) :
    s.diagnostics.errorCount = s.diagnostics.count :=
  Array.countP_eq_size.2 h.isError

/-- Unless the caller forces it, the end is forced by fatal messages and nothing else. -/
theorem forcedEnd_eq_hasFatal {s t : Scanner} (hs : Opened s) (h : Leads (· ≠ .forceEnd) s t) :
    t.forcedEnd = t.diagnostics.hasFatal := by
  refine h.induct (P := fun t => t.forcedEnd = t.diagnostics.hasFatal) (fun {t} files o ho ht => ?_)
    (fun _ _ ht => ht) ?_
  · obtain ⟨new, hnew⟩ := t.reports_perform files ho
    rw [hnew.forcedEnd, hnew.diagnostics, ht]
    simp [Diagnostics.hasFatal, Diagnostics.add]
  · obtain ⟨hdiagnostics, hforced, -⟩ := hs.empty
    rw [hdiagnostics, hforced]
    exact Array.any_empty.symm

/-- A call leaves sources, and enters none. -/
theorem depth_next_le (s : Scanner) : s.next.depth ≤ s.depth := by
  obtain ⟨left, hdrains, hsettles⟩ := s.drains_scan false
  exact Nat.le_trans (Nat.le_of_eq hsettles.length_eq) hdrains.length_le

/-- A source is entered only where there is room for it. -/
theorem depth_perform_le (files : FileSystem) {s : Scanner} (o : Operation)
    (h : s.depth ≤ InputError.maxDepth) : (s.perform files o).2.depth ≤ InputError.maxDepth := by
  have hdoes := s.does_perform files o
  generalize s.perform files o = r at hdoes
  cases hdoes with
  | next => exact Nat.le_trans s.depth_next_le h
  | entered _ hroom => exact hroom
  | refused => exact h
  | left hpop =>
    rw [depth, InputStack.depth, frames_of_pop? hpop, List.length_tail]
    exact Nat.le_trans (Nat.sub_le ..) h
  | forced => exact h
  | kept _ _ hinput =>
    rw [depth, hinput]
    exact h

theorem Reachable.depth_le {s : Scanner} (h : Reachable s) : s.depth ≤ InputError.maxDepth := by
  obtain ⟨s₀, hopened, hleads⟩ := h.exists_opened
  refine hleads.induct (P := fun s => s.depth ≤ InputError.maxDepth)
    (fun files o _ ht => depth_perform_le files o ht) (fun _ _ ht => ht) ?_
  rw [hopened.empty.2.2]
  decide

/-! ### Refusals -/

/-- The scanner with a message that ends it. -/
def endedBy (s : Scanner) (m : Message) : Scanner :=
  {s with diagnostics := s.diagnostics.report m, forcedEnd := true}

/-- What a refusal leaves: the one message about it at the current token, and a forced end. -/
inductive Refusal (s : Scanner) : InputError → Scanner → Prop where
  | unreadable (path : String) (why : ReadFailure) :
      Refusal s (.unreadable path why)
        (s.endedBy ⟨.fatal, .unreadable, s.current.pos, s!"cannot read '{path}': {why}"⟩)
  | tooDeep :
      Refusal s .nestingTooDeep
        (s.endedBy ⟨.fatal, .nestingTooDeep, s.current.pos,
          "too many nested input sources (limit is 254)"⟩)

/-- Whether a source is entered, and what is refused. -/
structure Entry (files : FileSystem) (s : Scanner) (o : Operation) : Prop where
  reply : (s.perform files o).1 = .done ∨ ∃ e, (s.perform files o).1 = .refused e
  /-- Whether or not there is a file to be opened. -/
  tooDeep : (s.perform files o).1 = .refused .nestingTooDeep ↔ s.depth = 254
  unreadable : ∀ path why, (s.perform files o).1 = .refused (.unreadable path why) ↔
    s.depth ≠ 254 ∧ o = .enterFile path ∧ files path = .error why
  refused : ∀ e, (s.perform files o).1 = .refused e → s.Refusal e (s.perform files o).2

section Entering
variable {files : FileSystem} {s : Scanner} {o : Operation} {e : InputError}

theorem refusal_fail (s : Scanner) (e : InputError) : s.Refusal e (s.fail e s.current.pos) := by
  cases e with
  | unreadable path why => exact .unreadable path why
  | nestingTooDeep =>
    have htext : toString InputError.nestingTooDeep =
        "too many nested input sources (limit is 254)" := by decide
    have hmessage : (Problem.input .nestingTooDeep).toMessage s.current.pos = _ :=
      congrArg (Message.mk .fatal .nestingTooDeep s.current.pos) htext
    rw [fail, report, hmessage]
    exact .tooDeep

theorem Refused.unique {e' : InputError} (h : Refused files s o e) (h' : Refused files s o e') :
    e = e' := by
  cases h with
  | tooDeep _ hdeep =>
    cases h' with
    | tooDeep => rfl
    | unreadable hroom => exact absurd hroom (Nat.not_lt_of_le hdeep)
  | unreadable hroom hfile =>
    cases h' with
    | tooDeep _ hdeep => exact absurd hroom (Nat.not_lt_of_le hdeep)
    | unreadable _ hfile' =>
      rw [hfile] at hfile'
      cases hfile'
      rfl

/-- What can be entered is not refused. -/
theorem Enters.not_refused {f : Frame} (h : Enters files s o f) (hroom : s.depth < InputError.maxDepth) :
    ¬ Refused files s o e := by
  rintro (⟨-, hdeep⟩ | ⟨-, hfile⟩)
  · exact absurd hroom (Nat.not_lt_of_le hdeep)
  · cases h with
    | file hopens =>
      rw [hopens] at hfile
      contradiction

/-- A source is entered, or it is refused for a reason, which then is the reply. -/
theorem entered_or_refused (files : FileSystem) (s : Scanner) (ho : o.enters = true) :
    ((s.perform files o).1 = .done ∧ ∀ e, ¬ Refused files s o e) ∨
      ∃ e, Refused files s o e ∧ s.perform files o = (.refused e, s.fail e s.current.pos) := by
  have hdoes := s.does_perform files o
  generalize s.perform files o = r at hdoes
  cases hdoes with
  | entered henters hroom => exact .inl ⟨rfl, fun _ => henters.not_refused hroom⟩
  | refused href => exact .inr ⟨_, href, rfl⟩
  | next | left | forced => contradiction
  | kept hno =>
    rw [ho] at hno
    contradiction

theorem refused_iff (ho : o.enters = true) :
    (s.perform files o).1 = .refused e ↔ Refused files s o e := by
  rcases s.entered_or_refused files ho with ⟨hdone, hnone⟩ | ⟨e', href, hreply⟩
  · rw [hdone]
    exact ⟨nofun, fun h => absurd h (hnone e)⟩
  · rw [hreply]
    exact ⟨fun h => by cases h; exact href, fun h => by rw [h.unique href]⟩

/-- A source is entered where there is room for it, and, if it is a file, where that can be opened. -/
theorem entry_of_enters (hdepth : s.depth ≤ InputError.maxDepth) (ho : o.enters = true) :
    Entry files s o := by
  constructor
  case reply =>
    rcases s.entered_or_refused files ho with ⟨hdone, -⟩ | ⟨e, -, hreply⟩
    · exact .inl hdone
    · exact .inr ⟨e, by rw [hreply]⟩
  case tooDeep =>
    rw [refused_iff ho]
    constructor
    · intro h
      cases h with
      | tooDeep _ hdeep => exact Nat.le_antisymm hdepth hdeep
    · exact fun hdeep => .tooDeep ho (Nat.le_of_eq hdeep.symm)
  case unreadable =>
    intro path why
    rw [refused_iff ho]
    constructor
    · intro h
      cases h with
      | unreadable hroom hfile => exact ⟨Nat.ne_of_lt hroom, rfl, hfile⟩
    · rintro ⟨hdeep, rfl, hfile⟩
      exact .unreadable (Nat.lt_of_le_of_ne hdepth hdeep) hfile
  case refused =>
    intro e he
    rcases s.entered_or_refused files ho with ⟨hdone, -⟩ | ⟨e', -, hreply⟩
    · rw [hdone] at he
      contradiction
    · rw [hreply] at he ⊢
      cases he
      exact s.refusal_fail e

end Entering

/-- **A source that is refused changes nothing else, and ends the scan.** -/
theorem refused_of_reachable {s : Scanner} (h : Reachable s) :
    s.depth ≤ 254 ∧
    (∀ files o, Operation.enters o = true → Entry files s o) ∧
    s.diagnostics.errorCount = s.diagnostics.count ∧
    ∀ s₀, Opened s₀ → Leads (· ≠ .forceEnd) s₀ s →
      (s.forcedEnd = true ↔ s.diagnostics.hasFatal = true) := by
  refine ⟨h.depth_le, fun _ _ ho => entry_of_enters h.depth_le ho, h.errorCount_eq, ?_⟩
  intro s₀ hopened hleads
  rw [forcedEnd_eq_hasFatal hopened hleads]

/-- A file that is not there is entered. -/
theorem refused_of_reachable_missing :
    let files : FileSystem := fun _ => .error .notFound
    let s := ofBytes {} "t.s" [Byte.colon]
    let t := (s.perform files (.enterFile "a.s")).2
    Reachable s ∧ s.Refusal (.unreadable "a.s" .notFound) t ∧ Reachable t ∧ t.depth ≤ 254 ∧
      t.diagnostics.errorCount = t.diagnostics.count ∧
      t.forcedEnd = true ∧ t.diagnostics.hasFatal = true := by
  intro files s t
  have hs : Reachable s := .ofBytes ..
  have ht : Reachable t := hs.perform files (.enterFile "a.s")
  have hforced : t.forcedEnd = true := rfl
  have hleads : Leads (· ≠ .forceEnd) s t := Leads.refl.perform files nofun
  obtain ⟨-, hentry, -⟩ := refused_of_reachable hs
  obtain ⟨hdepth, -, hcount, hfatal⟩ := refused_of_reachable ht
  have hrefusal := (hentry files (.enterFile "a.s") rfl).refused _ rfl
  exact ⟨hs, hrefusal, ht, hdepth, hcount, hforced, (hfatal s (.ofBytes ..) hleads).1 hforced⟩

end Scanner
end AsmScan
