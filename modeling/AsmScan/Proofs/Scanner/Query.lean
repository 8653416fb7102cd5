import AsmScan.Proofs.Byte
import AsmScan.Proofs.Keyword
import AsmScan.Proofs.Scanner.Run

/-! Questions about the current token.

A caller can look the current token up in a table, ask for the size of an address, and
fold the token's string. What he is told depends on the kind of the token and, if it is a
name, on the capitals of that (`searches_findSubkey`, `sizes_addressSize`). What changes
is the case of the string and, where a size is missing, what was reported.

Neither has a say in what is found later: a step leaves both aside (`step_aside`), and so
does every operation (`Resembles.perform`). So the calls of a session are those of the
session without its questions (`Resembles.turnsAmong_eq`). -/
namespace AsmScan

/-- Whether an operation is a question about the current token, or folds its string. -/
def Operation.asks : Operation → Bool
  | .toUpper | .toLower | .findSubkey _ | .addressSize => true
  | _ => false

/-- What is reported where the size of an address is missing. -/
def sizeMissing (pos : Position) : Message :=
  ⟨.error, .invalidAddressSize, pos, "address size specifier expected"⟩

/-- The override tokens, with the sizes that they say. -/
def sizeOverrides : List (Token × AddressSize) :=
  [(.overrideZeropage, .zeropage), (.overrideAbsolute, .absolute), (.overrideFar, .far)]

/-- The words that say a size, in capitals. -/
def sizeWords : AddressSize → List String
  | .unspecified => []
  | .zeropage => ["DIRECT", "ZEROPAGE", "ZP"]
  | .absolute => ["ABS", "ABSOLUTE", "NEAR"]
  | .far => ["FAR", "LONG"]
  | .long => ["DWORD"]

namespace AddressSize
variable {size : AddressSize}

theorem ofOverride?_eq_some_iff {t : Token} :
    ofOverride? t = some size ↔ (t, size) ∈ sizeOverrides := by
  constructor
  · intro h
    unfold ofOverride? at h
    split at h <;> cases h <;> decide
  · have hall : ∀ entry ∈ sizeOverrides, ofOverride? entry.1 = some entry.2 := by decide
    exact hall (t, size)

theorem ofOverride?_eq_none_iff {t : Token} :
    ofOverride? t = none ↔ ∀ size, (t, size) ∉ sizeOverrides := by
  simp only [Option.eq_none_iff_forall_not_mem, Option.mem_def, ofOverride?_eq_some_iff]

/-- The table that words are looked up in has those that say a size. -/
theorem mem_words_iff {w : String} : (w, size) ∈ words ↔ w ∈ sizeWords size := by
  cases size <;> simp [words, sizeWords]

end AddressSize

theorem ShortString.toUpper_toUpper (s : ShortString) : s.toUpper.toUpper = s.toUpper := by
  simp only [toUpper, Byte.map_toUpper_toUpper]

namespace Scanner

/-! ### Answers -/

/-- The scanner with another string at the current token. -/
def withString (s : Scanner) (text : ShortString) : Scanner :=
  {s with current := {s.current with attr := .str text}}

/-- What comes of looking the current token up. If it is a name, its capitals are sought and stay with
it; nothing else is sought. -/
inductive Searches (s : Scanner) (keys : Array (List UInt8)) : Option Nat × Scanner → Prop where
  | name {name : ShortString} {place : Option Nat} :
      s.current.token = .identifier → s.current.attr = .str name →
      SortedTable.Answers keys name.toUpper.bytes place →
      Searches s keys (place, s.withString name.toUpper)
  | other : s.current.token ≠ .identifier → Searches s keys (none, s)

/-- What comes of asking for the size of an address. An override token says it, or the capitals of a
name; anything else is reported where it stands, and no size is given. -/
inductive Sizes (s : Scanner) : AddressSize × Scanner → Prop where
  | override {size : AddressSize} :
      (s.current.token, size) ∈ sizeOverrides → Sizes s (size, s)
  | word {name : ShortString} {w : String} {size : AddressSize} :
      s.current.token = .identifier → s.current.attr = .str name →
      w ∈ sizeWords size → utf8 w = name.toUpper.bytes →
      Sizes s (size, s.withString name.toUpper)
  | unknown {name : ShortString} :
      s.current.token = .identifier → s.current.attr = .str name →
      (∀ size, ∀ w ∈ sizeWords size, utf8 w ≠ name.toUpper.bytes) →
      Sizes s (.unspecified,
        { s.withString name.toUpper with
          diagnostics := s.diagnostics.add [sizeMissing s.current.pos] })
  | other :
      s.current.token ≠ .identifier → (∀ size, (s.current.token, size) ∉ sizeOverrides) →
      Sizes s (.unspecified,
        {s with diagnostics := s.diagnostics.add [sizeMissing s.current.pos]})

section Answers
variable {s : Scanner} {name : ShortString}

/-- A name has a string. -/
theorem Reachable.exists_string (h : Reachable s) (ht : s.current.token = .identifier) :
    ∃ name, s.current.attr = .str name := by
  refine h.held.consistent.str.2 ?_
  rw [ht]
  rfl

theorem findSubkey_name (ht : s.current.token = .identifier) (hattr : s.current.attr = .str name)
    (keys : Array (List UInt8)) :
    s.findSubkey keys =
      (SortedTable.search keys name.toUpper.bytes, s.withString name.toUpper) := by
  have hupper : s.toUpper = s.withString name.toUpper := by
    rw [toUpper, mapCurrent, hattr]
    rfl
  unfold findSubkey
  rw [if_pos ht, hupper]
  rfl

theorem findSubkey_other (ht : s.current.token ≠ .identifier) (keys : Array (List UInt8)) :
    s.findSubkey keys = (none, s) := if_neg ht

/-- **To look a name up finds its capitals**, and anything else nothing. -/
theorem searches_findSubkey (h : Reachable s) {keys : Array (List UInt8)}
    (hkeys : SortedTable.Ordered keys) : Searches s keys (s.findSubkey keys) := by
  by_cases ht : s.current.token = .identifier
  · obtain ⟨name, hattr⟩ := h.exists_string ht
    rw [findSubkey_name ht hattr]
    exact .name ht hattr (SortedTable.answers_search hkeys _)
  · rw [findSubkey_other ht]
    exact .other ht

/-- What was found once is found again, and nothing changes any more. -/
theorem findSubkey_findSubkey (h : Reachable s) (keys : Array (List UInt8)) :
    (s.findSubkey keys).2.findSubkey keys = s.findSubkey keys := by
  by_cases ht : s.current.token = .identifier
  · obtain ⟨name, hattr⟩ := h.exists_string ht
    have hagain := findSubkey_name (s := s.withString name.toUpper) ht rfl keys
    rw [findSubkey_name ht hattr, hagain, ShortString.toUpper_toUpper]
    rfl
  · rw [findSubkey_other ht, findSubkey_other ht]

/-- **An override token or a word says the size of an address**, and a missing size is reported. -/
theorem sizes_addressSize (h : Reachable s) : Sizes s s.addressSize := by
  unfold addressSize
  cases hoverride : AddressSize.ofOverride? s.current.token with
  | some size => exact .override (AddressSize.ofOverride?_eq_some_iff.1 hoverride)
  | none =>
    by_cases ht : s.current.token = .identifier
    · obtain ⟨name, hattr⟩ := h.exists_string ht
      rw [findSubkey_name ht hattr]
      dsimp only
      split
      next size hsize =>
        obtain ⟨w, hw, hname⟩ := AddressSize.atPlace?_eq_some_iff.1 hsize
        exact .word ht hattr (AddressSize.mem_words_iff.1 hw) hname
      next hnone =>
        refine .unknown ht hattr fun size w hw hname => ?_
        have hsize := AddressSize.atPlace?_eq_some_iff.2 ⟨w, AddressSize.mem_words_iff.2 hw, hname⟩
        rw [hnone] at hsize
        contradiction
    · rw [findSubkey_other ht]
      exact .other ht (AddressSize.ofOverride?_eq_none_iff.1 hoverride)

/-- Only a name or an override token says a size. -/
theorem Sizes.mem_of_ne {answer : AddressSize × Scanner} (h : Sizes s answer)
    (hsize : answer.1 ≠ .unspecified) :
    s.current.token ∈ [.identifier, .overrideZeropage, .overrideAbsolute, .overrideFar] := by
  cases h with
  | @override size hoverride =>
    have hall : ∀ entry ∈ sizeOverrides,
        entry.1 ∈ [.identifier, .overrideZeropage, .overrideAbsolute, .overrideFar] := by decide
    exact hall (s.current.token, size) hoverride
  | word ht => exact ht ▸ List.mem_cons_self
  | unknown | other => exact absurd rfl hsize

end Answers

/-! ### What has no say -/

/-- The scanner with another attribute at the current token, and other messages. -/
def aside (s : Scanner) (attr : Attr) (d : Diagnostics) : Scanner :=
  {s with current := {s.current with attr}, diagnostics := d}

/-- The step with other messages. A token that is found has its own attribute. -/
def Step.aside (attr : Attr) (d : Diagnostics) : Step → Step
  | .found t => .found {t with diagnostics := d}
  | .onward after t => .onward after (t.aside attr d)

section Aside
variable (s : Scanner) (spaced : Bool)

theorem aside_atLineStart (attr : Attr) (d : Diagnostics) :
    (s.aside attr d).atLineStart = s.atLineStart := rfl

theorem takeLexeme_aside (l : Lexeme) (attr : Attr) (d : Diagnostics) :
    (s.aside attr d).takeLexeme spaced l =
      (s.takeLexeme spaced l).aside attr (d.add (l.messages s.input.pos)) := by
  have hpast : (s.aside attr d).past l = (s.past l).aside attr (d.add (l.messages s.input.pos)) := rfl
  rw [takeLexeme_eq, takeLexeme_eq, hpast, aside_atLineStart]
  split
  · rfl
  · rfl
  · split <;> rfl
  · rfl

theorem leaveEnded_aside : ∃ new, ∀ attr d,
    (s.aside attr d).leaveEnded spaced = (s.leaveEnded spaced).aside attr (d.add new) := by
  cases hfailure : s.input.failure? with
  | some e =>
    refine ⟨[(Problem.input e).toMessage s.input.pos], fun attr d => ?_⟩
    rw [leaveEnded_failed spaced hfailure, leaveEnded_failed (s := s.aside attr d) spaced hfailure,
      ← Diagnostics.report_eq_add]
    rfl
  | none =>
    refine ⟨[], fun attr d => ?_⟩
    rw [Diagnostics.add_nil]
    rcases s.depth_cases with hdepth | ⟨f, g, below, hframes⟩
    · rw [leaveEnded_last spaced hfailure hdepth,
        leaveEnded_last (s := s.aside attr d) spaced hfailure hdepth]
      rfl
    · rw [leaveEnded_covering spaced hfailure hframes,
        leaveEnded_covering (s := s.aside attr d) spaced hfailure hframes, aside_atLineStart]
      split <;> rfl

/-- **Neither the attribute of the last token nor what was reported has a say in a step.** -/
theorem step_aside : ∃ new, ∀ attr d,
    (s.aside attr d).step spaced = (s.step spaced).aside attr (d.add new) := by
  cases hforced : s.forcedEnd with
  | true =>
    refine ⟨[], fun attr d => ?_⟩
    rw [step_forced hforced, step_forced (s := s.aside attr d) hforced, Diagnostics.add_nil]
    rfl
  | false =>
    cases hunread : s.input.unread with
    | cons first rest =>
      let l : Lexeme := .read s.config s.charmap first rest
      refine ⟨l.messages s.input.pos, fun attr d => ?_⟩
      rw [step_read hforced hunread, step_read (s := s.aside attr d) hforced hunread]
      exact s.takeLexeme_aside spaced l attr d
    | nil =>
      obtain ⟨new, hnew⟩ := s.leaveEnded_aside spaced
      refine ⟨new, fun attr d => ?_⟩
      rw [step_leave hforced hunread, step_leave (s := s.aside attr d) hforced hunread, hnew]

theorem scan_aside : ∃ new, ∀ attr d,
    (s.aside attr d).scan spaced = {s.scan spaced with diagnostics := d.add new} := by
  fun_induction scan s spaced with
  | case1 s spaced t hstep =>
    obtain ⟨new, hnew⟩ := s.step_aside spaced
    rw [hstep] at hnew
    exact ⟨new, fun attr d => scan_found (hnew attr d)⟩
  | case2 s spaced after t hstep _ ih =>
    obtain ⟨new, hnew⟩ := s.step_aside spaced
    obtain ⟨more, hmore⟩ := ih
    rw [hstep] at hnew
    refine ⟨new ++ more, fun attr d => ?_⟩
    rw [scan_onward (hnew attr d), hmore, Diagnostics.add_add]

end Aside

/-! ### Sessions without questions -/

/-- Whether a scanner differs from another in what has no say at most. -/
def Resembles (s t : Scanner) : Prop := ∃ attr d, t = s.aside attr d

section Resembling
variable {s t u : Scanner}

theorem Resembles.refl (s : Scanner) : s.Resembles s := ⟨s.current.attr, s.diagnostics, rfl⟩

theorem Resembles.symm (h : s.Resembles t) : t.Resembles s := by
  obtain ⟨attr, d, rfl⟩ := h
  exact ⟨s.current.attr, s.diagnostics, rfl⟩

theorem Resembles.trans (h : s.Resembles t) (hmore : t.Resembles u) : s.Resembles u := by
  obtain ⟨attr, d, rfl⟩ := h
  obtain ⟨attr', d', rfl⟩ := hmore
  exact ⟨attr', d', rfl⟩

/-- A call finds the same, and reports the same. -/
theorem Resembles.turn_eq (h : s.Resembles t) : s.turn = t.turn := by
  obtain ⟨attr, d, rfl⟩ := h
  obtain ⟨new, hnew⟩ := s.scan_aside false
  have hturn (attr : Attr) (d : Diagnostics) :
      (s.aside attr d).turn = ⟨new, s.next.current⟩ := by
    have hnext : (s.aside attr d).next = {s.next with diagnostics := d.add new} := hnew attr d
    rw [turn, hnext]
    exact congrArg (Turn.mk · s.next.current) (Diagnostics.since_add d new)
  -- The scanner is its own with what it has.
  exact (hturn s.current.attr s.diagnostics).trans (hturn attr d).symm

theorem Resembles.next (h : s.Resembles t) : s.next.Resembles t.next := by
  obtain ⟨attr, d, rfl⟩ := h
  obtain ⟨new, hnew⟩ := s.scan_aside false
  exact ⟨s.next.current.attr, d.add new, hnew attr d⟩

/-- A question changes only what has no say. -/
theorem resembles_of_asks (files : FileSystem) (s : Scanner) {o : Operation} (ho : o.asks = true) :
    s.Resembles (s.perform files o).2 := by
  cases o with
  | toUpper | toLower => exact ⟨_, s.diagnostics, rfl⟩
  | findSubkey keys =>
    show s.Resembles (s.findSubkey keys).2
    rcases s.findSubkey_cases keys with h | h <;> rw [h]
    · exact .refl s
    · exact ⟨_, s.diagnostics, rfl⟩
  | addressSize =>
    show s.Resembles s.addressSize.2
    rcases s.addressSize_cases with h | h | h | h <;> rw [h]
    · exact .refl s
    · exact ⟨_, s.diagnostics, rfl⟩
    · exact ⟨s.current.attr, _, rfl⟩
    · exact ⟨_, _, rfl⟩
  | _ => contradiction

/-- A source is entered alike, or refused alike. -/
theorem Resembles.enter (h : s.Resembles t) (pushed : Except InputError InputStack) :
    (entering (s.enter pushed)).2.Resembles (entering (t.enter pushed)).2 := by
  obtain ⟨attr, d, rfl⟩ := h
  cases pushed with
  | ok input => exact ⟨attr, d, rfl⟩
  | error e => exact ⟨attr, _, rfl⟩

/-- **Every operation leaves aside what has no say.** -/
theorem Resembles.perform (h : s.Resembles t) (files : FileSystem) (o : Operation) :
    (s.perform files o).2.Resembles (t.perform files o).2 := by
  by_cases ho : o.asks = true
  · exact (resembles_of_asks files s ho).symm.trans (h.trans (resembles_of_asks files t ho))
  have hinput : t.input = s.input := by
    obtain ⟨attr, d, rfl⟩ := h
    rfl
  cases o with
  | next => exact h.next
  | enterFile path =>
    unfold Scanner.perform enterFile
    rw [hinput]
    exact h.enter _
  | enterBytes name bytes =>
    unfold Scanner.perform enterBytes
    rw [hinput]
    exact h.enter _
  | leave =>
    unfold Scanner.perform leave?
    rw [hinput]
    cases s.input.pop? with
    | none => exact h
    | some input =>
      obtain ⟨attr, d, rfl⟩ := h
      exact ⟨attr, d, rfl⟩
  | forceEnd | setFeature | setCpu | setLocalChar | setCharmap =>
    obtain ⟨attr, d, rfl⟩ := h
    exact ⟨attr, d, rfl⟩
  | toUpper | toLower | findSubkey | addressSize => exact absurd rfl ho

theorem Resembles.calls_eq (h : s.Resembles t) (n : Nat) : s.calls n = t.calls n := by
  induction n generalizing s t with
  | zero => rfl
  | succ n ih => rw [calls, calls, h.turn_eq, ih h.next]

theorem resembles_performAll (files : FileSystem) (s : Scanner) {questions : List Operation}
    (h : ∀ o ∈ questions, o.asks = true) : s.Resembles (s.performAll files questions) := by
  induction questions generalizing s with
  | nil => exact .refl s
  | cons o more ih =>
    obtain ⟨ho, hmore⟩ := List.forall_mem_cons.1 h
    exact (resembles_of_asks files s ho).trans (ih _ hmore)

end Resembling

/-- The calls of `next` in a session. The files may change between two operations. -/
def turnsAmong (s : Scanner) : List (FileSystem × Operation) → List Turn
  | [] => []
  | (files, o) :: more =>
    let later := (s.perform files o).2.turnsAmong more
    if o = .next then s.turn :: later else later

/-- The session without its questions. -/
def withoutQuestions (session : List (FileSystem × Operation)) : List (FileSystem × Operation) :=
  session.filter fun done => !done.2.asks

/-- **The calls of a session are those of the session without its questions.** -/
theorem Resembles.turnsAmong_eq {s t : Scanner} (h : s.Resembles t)
    (session : List (FileSystem × Operation)) :
    s.turnsAmong session = t.turnsAmong (withoutQuestions session) := by
  induction session generalizing s t with
  | nil => rfl
  | cons done more ih =>
    obtain ⟨files, o⟩ := done
    cases ho : o.asks with
    | true =>
      have hnext : o ≠ .next := by
        rintro rfl
        contradiction
      have hdropped : withoutQuestions ((files, o) :: more) = withoutQuestions more :=
        List.filter_cons_of_neg (by simp [ho])
      rw [hdropped, turnsAmong, if_neg hnext]
      exact ih ((resembles_of_asks files s ho).symm.trans h)
    | false =>
      have hkept : withoutQuestions ((files, o) :: more) = (files, o) :: withoutQuestions more :=
        List.filter_cons_of_pos (by simp [ho])
      rw [hkept, turnsAmong, turnsAmong, h.turn_eq, ih (h.perform files o)]

/-- **Questions are answered exactly, and leave the scan alone**, whatever a caller has done. A look-up
in any table that is in order finds the capitals of a name, and finds them again. A size is that of
an override token or of a word, and of no other token, and a missing one is reported once where the
token stands. All that changes besides is the case of a name. After questions the calls to come find
the same tokens and report the same, and so do those of any session if it goes without its
questions. -/
theorem questions_of_reachable {s : Scanner} (h : Reachable s) :
    (∀ keys, SortedTable.Ordered keys → Searches s keys (s.findSubkey keys) ∧
      (s.findSubkey keys).2.findSubkey keys = s.findSubkey keys) ∧
    Sizes s s.addressSize ∧
    (s.addressSize.1 ≠ .unspecified →
      s.current.token ∈ [.identifier, .overrideZeropage, .overrideAbsolute, .overrideFar]) ∧
    (∀ files questions, (∀ o ∈ questions, Operation.asks o = true) →
      ∀ n, (s.performAll files questions).calls n = s.calls n) ∧
    ∀ session, s.turnsAmong session = s.turnsAmong (withoutQuestions session) := by
  refine ⟨fun keys hkeys => ⟨searches_findSubkey h hkeys, findSubkey_findSubkey h keys⟩,
    sizes_addressSize h, (sizes_addressSize h).mem_of_ne, fun files questions hasks n => ?_,
    (Resembles.refl s).turnsAmong_eq⟩
  exact ((resembles_performAll files s hasks).calls_eq n).symm

/-- A small word for a size, which is asked for and looked up, and then folded back. -/
theorem questions_of_reachable_small :
    let s := (ofBytes {} "t.s" [Byte.lowerZ, 0x70, Byte.comma]).next
    let capitals : ShortString := ⟨[Byte.upperZ, 0x50], by decide⟩
    let files : FileSystem := fun _ => .error .notFound
    Reachable s ∧
      s.addressSize = (.zeropage, s.withString capitals) ∧
      s.findSubkey AddressSize.keys = (some 8, s.withString capitals) ∧
      (s.performAll files [.addressSize, .toLower]).calls 2 = s.calls 2 ∧
      s.turnsAmong [(files, .toLower), (files, .next)] = s.turnsAmong [(files, .next)] := by
  intro s capitals files
  have hreachable : Reachable s := (Reachable.ofBytes ..).perform files .next
  have hs : s = _ := (scan_found rfl : (ofBytes {} "t.s" [Byte.lowerZ, 0x70, Byte.comma]).next = _)
  have ht : s.current.token = .identifier := by
    rw [hs]
    rfl
  have hattr : s.current.attr = .str ⟨[Byte.lowerZ, 0x70], by decide⟩ := by
    rw [hs]
    rfl
  have hsorted : SortedTable.Sorted AddressSize.keys := by decide +kernel
  obtain ⟨hsearches, hsizes, -, hcalls, hturns⟩ := questions_of_reachable hreachable
  obtain ⟨hsearch, -⟩ := hsearches AddressSize.keys hsorted.ordered
  refine ⟨hreachable, ?_, ?_, hcalls files _ (by decide) 2, hturns _⟩
  · generalize s.addressSize = answer at hsizes
    cases hsizes with
    | @override size hoverride =>
      have hall : ∀ entry ∈ sizeOverrides, entry.1 ≠ .identifier := by decide
      exact absurd ht (hall (s.current.token, size) hoverride)
    | @word name w size _ hname hw hword =>
      rw [hattr] at hname
      cases hname
      have hall : ∀ size ∈ AddressSize.all, ∀ w ∈ sizeWords size, utf8 w = capitals.bytes →
        size = .zeropage := by decide +kernel
      have hlisted : size ∈ AddressSize.all := by cases size <;> decide
      obtain rfl : size = .zeropage := hall size hlisted w hw hword
      rfl
    | unknown _ hname hnone =>
      rw [hattr] at hname
      cases hname
      exact absurd rfl (hnone .zeropage "ZP" (by decide))
    | other hother => exact absurd ht hother
  · generalize s.findSubkey AddressSize.keys = answer at hsearch
    cases hsearch with
    | @name name place _ hname hanswers =>
      rw [hattr] at hname
      cases hname
      have hplace : AddressSize.keys[8]? = some capitals.bytes := by decide +kernel
      obtain ⟨found, hfound⟩ :=
        Option.isSome_iff_exists.1 (hanswers.isSome.2 (Array.mem_of_getElem? hplace))
      rw [hfound, hsorted.place_unique (hanswers.place found hfound) hplace]
      rfl
    | other hother => exact absurd ht hother

end Scanner
end AsmScan
