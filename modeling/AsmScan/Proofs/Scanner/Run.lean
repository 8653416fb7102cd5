import AsmScan.Proofs.Scanner.Enter
import AsmScan.Proofs.Scanner.Progress
import AsmScan.Proofs.Scanner.Session

/-! Runs of a scanner.

A run is what a caller makes of a scanner, operation by operation. `Does` has one case
for each of the things that an operation can do, with what it changes, and
`does_perform` says that there are no others. What operations of some kind bring a
scanner to, with changes of the configuration in between, is where it `Leads`; an
invariant is kept by a run if every operation keeps it (`Leads.induct`). -/
namespace AsmScan.Scanner

/-! ### What an operation does -/

/-- Why a source is not entered. A file that would be nested too deep is not even looked for. -/
inductive Refused (files : FileSystem) (s : Scanner) : Operation → InputError → Prop where
  | tooDeep {o : Operation} : o.enters = true → InputError.maxDepth ≤ s.depth →
      Refused files s o .nestingTooDeep
  | unreadable {path : String} {why : ReadFailure} : s.depth < InputError.maxDepth →
      files path = .error why → Refused files s (.enterFile path) (.unreadable path why)

/-- What can come of an operation, with the reply to it. -/
inductive Does (files : FileSystem) (s : Scanner) : Operation → Reply × Scanner → Prop where
  | next : Does files s .next (.found s.next.current.token, s.next)
  | entered {o : Operation} {f : Frame} : Enters files s o f → s.depth < InputError.maxDepth →
      Does files s o (.done, s.withFrame f)
  | refused {o : Operation} {e : InputError} : Refused files s o e →
      Does files s o (.refused e, s.fail e s.current.pos)
  | left {input : InputStack} : s.input.pop? = some input →
      Does files s .leave (.leaving true, {s with input})
  | forced : Does files s .forceEnd (.done, s.forceEnd)
  /-- The sources and the end stay as they are. All that can be reported is that an address size is
  missing. -/
  | kept {o : Operation} {r : Reply} {t : Scanner} : o.enters = false → o ≠ .next →
      t.input = s.input → t.forcedEnd = s.forcedEnd → s.Refolds t →
      (t.diagnostics = s.diagnostics ∨
        t.diagnostics = s.diagnostics.report (Problem.addressSizeExpected.toMessage s.current.pos)) →
      Does files s o (r, t)

section Operations
variable {files : FileSystem} {s : Scanner}

theorem does_enterFile (path : String) :
    Does files s (.enterFile path) (s.perform files (.enterFile path)) := by
  by_cases hdepth : InputError.maxDepth ≤ s.depth
  · have hpush : s.input.pushFile files path = .error .nestingTooDeep := if_pos hdepth
    simp only [perform, enterFile, hpush]
    exact .refused (.tooDeep rfl hdepth)
  · have hroom : s.depth < InputError.maxDepth := Nat.lt_of_not_le hdepth
    cases hfile : files path with
    | ok contents =>
      rw [perform_enters (.file hfile) (Nat.le_of_lt_succ hroom)]
      exact .entered (.file hfile) hroom
    | error why =>
      have hpush : s.input.pushFile files path = .error (.unreadable path why) := by
        unfold InputStack.pushFile
        rw [hfile]
        exact if_neg hdepth
      simp only [perform, enterFile, hpush]
      exact .refused (.unreadable hroom hfile)

theorem does_enterBytes (name : Option String) (bytes : List UInt8) :
    Does files s (.enterBytes name bytes) (s.perform files (.enterBytes name bytes)) := by
  by_cases hdepth : InputError.maxDepth ≤ s.depth
  · have hpush : s.input.pushBytes name bytes = .error .nestingTooDeep := by
      cases name <;> exact if_pos hdepth
    simp only [perform, enterBytes, hpush]
    exact .refused (.tooDeep rfl hdepth)
  · have hroom : s.depth < InputError.maxDepth := Nat.lt_of_not_le hdepth
    have henters : ∃ f, Enters files s (.enterBytes name bytes) f := by
      cases name with
      | none => exact ⟨_, .here⟩
      | some name => exact ⟨_, .named⟩
    obtain ⟨f, hf⟩ := henters
    rw [perform_enters hf (Nat.le_of_lt_succ hroom)]
    exact .entered hf hroom

/-- To look the current token up changes the case of a name at most. -/
theorem findSubkey_cases (s : Scanner) (keys : Array (List UInt8)) :
    (s.findSubkey keys).2 = s ∨ (s.findSubkey keys).2 = s.toUpper := by
  unfold findSubkey
  split
  · exact .inr rfl
  · exact .inl rfl

theorem does_findSubkey (keys : Array (List UInt8)) :
    Does files s (.findSubkey keys) (s.perform files (.findSubkey keys)) := by
  have hrefolds := s.refolds_findSubkey keys
  show Does files s _ (_, (s.findSubkey keys).2)
  rcases s.findSubkey_cases keys with h | h <;> rw [h] at hrefolds ⊢ <;>
    exact .kept rfl nofun rfl rfl hrefolds (.inl rfl)

/-- A missing size is reported where the current token stands. -/
theorem addressSize_cases (s : Scanner) :
    s.addressSize.2 = s ∨ s.addressSize.2 = s.toUpper ∨
      s.addressSize.2 = s.report .addressSizeExpected s.current.pos ∨
      s.addressSize.2 = s.toUpper.report .addressSizeExpected s.current.pos := by
  unfold addressSize
  cases AddressSize.ofOverride? s.current.token with
  | some size => exact .inl rfl
  | none =>
    have hlookup := s.findSubkey_cases AddressSize.keys
    dsimp only
    split
    · exact hlookup.imp_right .inl
    · rcases hlookup with h | h <;> rw [h]
      · exact .inr (.inr (.inl rfl))
      · exact .inr (.inr (.inr rfl))

theorem does_addressSize : Does files s .addressSize (s.perform files .addressSize) := by
  have hrefolds := s.refolds_addressSize
  show Does files s _ (_, s.addressSize.2)
  rcases s.addressSize_cases with h | h | h | h <;> rw [h] at hrefolds ⊢
  · exact .kept rfl nofun rfl rfl hrefolds (.inl rfl)
  · exact .kept rfl nofun rfl rfl hrefolds (.inl rfl)
  · exact .kept rfl nofun rfl rfl hrefolds (.inr rfl)
  · exact .kept rfl nofun rfl rfl hrefolds (.inr rfl)

end Operations

/-- **Nothing else can come of an operation.** -/
theorem does_perform (files : FileSystem) (s : Scanner) (o : Operation) :
    Does files s o (s.perform files o) := by
  cases o with
  | next => exact .next
  | enterFile path => exact does_enterFile path
  | enterBytes name bytes => exact does_enterBytes name bytes
  | leave =>
    unfold perform leave?
    cases hpop : s.input.pop? with
    | none => exact .kept rfl nofun rfl rfl (refolds_of_eq rfl) (.inl rfl)
    | some input => exact .left hpop
  | forceEnd => exact .forced
  | toUpper => exact .kept rfl nofun rfl rfl s.refolds_toUpper (.inl rfl)
  | toLower => exact .kept rfl nofun rfl rfl s.refolds_toLower (.inl rfl)
  | findSubkey keys => exact does_findSubkey keys
  | addressSize => exact does_addressSize
  | setFeature | setCpu | setLocalChar | setCharmap =>
    exact .kept rfl nofun rfl rfl (refolds_of_eq rfl) (.inl rfl)

/-- The sources stay as they are, but for one that is put on top, or the top one that is left. -/
inductive Handled (before : List Frame) : List Frame → Prop where
  | kept : Handled before before
  | entered (f : Frame) : Handled before (f :: before)
  | left : Handled before before.tail

theorem frames_of_pop? {input popped : InputStack} (h : input.pop? = some popped) :
    popped.frames = input.frames.tail := by
  obtain ⟨frames, last⟩ := input
  cases frames with
  | nil => contradiction
  | cons f below =>
    cases h
    rfl

/-- Nothing is read but by a call of `next`. -/
theorem handled_perform (files : FileSystem) (s : Scanner) {o : Operation} (ho : o ≠ .next) :
    Handled s.input.frames (s.perform files o).2.input.frames := by
  have h := s.does_perform files o
  generalize s.perform files o = r at h
  cases h with
  | next => exact absurd rfl ho
  | entered => exact .entered _
  | refused | forced => exact .kept
  | left hpop => exact frames_of_pop? hpop ▸ .left
  | kept _ _ hinput => exact hinput ▸ .kept

/-! ### What a run leads to -/

/-- A scanner that was opened on a text or a file, and nothing done with it since. -/
inductive Opened : Scanner → Prop where
  | ofBytes (config : Config) (name : String) (bytes : List UInt8) :
      Opened (.ofBytes config name bytes)
  | ofFile {files : FileSystem} {config : Config} {path : String} {s : Scanner} :
      Scanner.ofFile files config path = .ok s → Opened s

/-- What a scanner is brought to by operations of a kind, with changes of the configuration. The
files may change between two operations. -/
inductive Leads (kind : Operation → Prop) (s : Scanner) : Scanner → Prop where
  | refl : Leads kind s s
  | perform {t : Scanner} (files : FileSystem) {o : Operation} :
      Leads kind s t → kind o → Leads kind s (t.perform files o).2
  | configure {t : Scanner} (config : Config) (charmap : Charmap) :
      Leads kind s t → Leads kind s {t with config, charmap}

/-- To open a file opens a scanner on it. -/
theorem ofFile_eq {files : FileSystem} {path : String} {contents : Contents}
    (hfile : files path = .ok contents) (c : Config) :
    ofFile files c path = .ok (ofInput c (.ofFrame (.ofFile path contents))) := by
  have hroom : ¬ InputError.maxDepth ≤ InputStack.empty.depth := by decide
  unfold ofFile InputStack.pushFile
  rw [if_neg hroom, hfile]
  rfl

/-- A scanner is opened with a single source, and nothing found. -/
theorem Opened.exists_frame {s : Scanner} (h : Opened s) :
    ∃ config f, s = ofInput config (.ofFrame f) := by
  cases h with
  | ofBytes config name bytes => exact ⟨config, _, rfl⟩
  | @ofFile files config path s hopen =>
    cases hfile : files path with
    | error why =>
      have hroom : ¬ InputError.maxDepth ≤ InputStack.empty.depth := by decide
      unfold Scanner.ofFile InputStack.pushFile at hopen
      rw [if_neg hroom, hfile] at hopen
      contradiction
    | ok contents =>
      rw [ofFile_eq hfile] at hopen
      cases hopen
      exact ⟨config, _, rfl⟩

/-- A run keeps what each of its operations keeps. -/
theorem Leads.induct {kind : Operation → Prop} {P : Scanner → Prop}
    (hperform : ∀ {t : Scanner} (files : FileSystem) {o : Operation}, kind o → P t →
      P (t.perform files o).2)
    (hconfigure : ∀ {t : Scanner} (config : Config) (charmap : Charmap), P t →
      P {t with config, charmap})
    {s t : Scanner} (h : Leads kind s t) (hs : P s) : P t := by
  induction h with
  | refl => exact hs
  | perform files _ ho ih => exact hperform files ho ih
  | configure config charmap _ ih => exact hconfigure config charmap ih

theorem Leads.trans {kind : Operation → Prop} {s t u : Scanner} (h : Leads kind s t)
    (hmore : Leads kind t u) : Leads kind s u := by
  induction hmore with
  | refl => exact h
  | perform files _ ho ih => exact ih.perform files ho
  | configure config charmap _ ih => exact ih.configure config charmap

theorem Leads.mono {kind kind' : Operation → Prop} (hkind : ∀ o, kind o → kind' o) {s t : Scanner}
    (h : Leads kind s t) : Leads kind' s t := by
  induction h with
  | refl => exact .refl
  | perform files _ ho ih => exact ih.perform files (hkind _ ho)
  | configure config charmap _ ih => exact ih.configure config charmap

/-- What can be reached is what an opened scanner leads to. -/
theorem Reachable.exists_opened {t : Scanner} (h : Reachable t) :
    ∃ s, Opened s ∧ Leads (fun _ => True) s t := by
  induction h with
  | ofBytes config name bytes => exact ⟨_, .ofBytes config name bytes, .refl⟩
  | ofFile hopen => exact ⟨_, .ofFile hopen, .refl⟩
  | perform files o _ ih =>
    obtain ⟨s, hs, ht⟩ := ih
    exact ⟨s, hs, ht.perform files trivial⟩
  | configure config charmap _ ih =>
    obtain ⟨s, hs, ht⟩ := ih
    exact ⟨s, hs, ht.configure config charmap⟩

end AsmScan.Scanner
