import AsmScan.Proofs.Scanner.Step
import AsmScan.Scanner.Session

/-! What a session can come to.

A scanner is `Reachable` if it was opened on a text or a file and a caller has done
something with it since, any number of operations and changes of the configuration.
Whatever that was, the current token has the attribute that its kind calls for
(`attribute_of_reachable`): a call of `next` finds a token with such an attribute, and no
other operation changes more of it than the case of its string. -/
namespace AsmScan

/-! ### What is held -/

/-- A token that a scanner can have come to, with its attribute. -/
inductive Held : Token → Attr → Prop where
  /-- Nothing, or the end of something. -/
  | ends {t : Token} : Lexeme.isEnd t = true → Held t .none
  | read {t : Token} {attr : Attr} : Lexeme.Carries t attr → Held t attr

/-- The attribute of a token is what its kind calls for. -/
structure Consistent (o : Occurrence) : Prop where
  int : (∃ value, o.attr = .int value) ↔ o.token.hasInt = true
  str : (∃ text, o.attr = .str text) ↔ o.token.hasString = true
  none : o.attr = .none ↔ o.token.hasInt = false ∧ o.token.hasString = false
  intConst : ∀ value, o.token = .intConst → o.attr = .int value → 0 ≤ value ∧ value ≤ 0xFFFFFFFF
  charConst : ∀ value, o.token = .charConst → o.attr = .int value → 0 ≤ value ∧ value ≤ 255
  unnamedLabel : ∀ value, o.token = .unnamedLabel → o.attr = .int value → value ≠ 0
  length : ∀ text, o.attr = .str text → text.bytes.length ≤ 255
  nonempty : ∀ text, o.token = .identifier ∨ o.token = .mnemonic → o.attr = .str text →
    text.bytes ≠ []

namespace Held
variable {t : Token} {attr : Attr}

theorem mapStr (h : Held t attr) {f : ShortString → ShortString}
    (hf : ∀ text, (f text).bytes.length = text.bytes.length) : Held t (attr.mapStr f) := by
  have hnonempty (text : ShortString) (h : text.bytes ≠ []) : (f text).bytes ≠ [] := by
    rw [← List.length_pos_iff, hf, List.length_pos_iff]
    exact h
  cases h with
  | ends ht => exact .ends ht
  | read h => exact .read (h.mapStr hnonempty)

/-- The kind of a token says whether it has an integer or a string. -/
theorem isSome_attr (h : Held t attr) :
    attr.int?.isSome = t.hasInt ∧ attr.str?.isSome = t.hasString := by
  cases h with
  | ends ht => cases t <;> first | exact ⟨rfl, rfl⟩ | contradiction
  | read h =>
    cases h with
    | nothing ht =>
      simp only [Lexeme.isBare, Bool.and_eq_true, Bool.not_eq_true'] at ht
      exact ⟨ht.1.2.symm, ht.2.symm⟩
    | name ht => rcases ht with rfl | rfl <;> exact ⟨rfl, rfl⟩
    | number | char | string | label => exact ⟨rfl, rfl⟩

/-- No token is held that is put in by an expansion. -/
theorem not_putIn (h : Held t attr) : t ≠ .macroParameter ∧ t ≠ .repeatCounter := by
  refine ⟨?_, ?_⟩ <;> rintro rfl <;> cases h with
  | ends ht => contradiction
  | read h =>
    cases h with
    | nothing ht => contradiction
    | name ht => rcases ht with ht | ht <;> contradiction

theorem consistent {o : Occurrence} (h : Held o.token o.attr) : Consistent o := by
  obtain ⟨t, attr, spaced, pos⟩ := o
  obtain ⟨hint, hstr⟩ := h.isSome_attr
  refine ⟨?int, ?str, ?none, ?intConst, ?charConst, ?unnamedLabel, ?length, ?nonempty⟩
  case int =>
    rw [← hint]
    cases attr <;> simp [Attr.int?]
  case str =>
    rw [← hstr]
    cases attr <;> simp [Attr.str?]
  case none =>
    rw [← hint, ← hstr]
    cases attr <;> simp [Attr.int?, Attr.str?]
  case intConst =>
    rintro value rfl rfl
    cases h with
    | read h =>
      cases h with
      | @number value hvalue =>
        have : value.toNat ≤ 0xFFFFFFFF := UInt64.le_iff_toNat_le.1 hvalue
        omega
  case charConst =>
    rintro value rfl rfl
    cases h with
    | read h =>
      cases h with
      | char b =>
        have : b.toNat < 256 := b.toNat_lt
        omega
  case unnamedLabel =>
    rintro value rfl rfl
    cases h with
    | read h =>
      cases h with
      | label hcount => exact hcount
  case length =>
    rintro text rfl
    exact text.length_le
  case nonempty =>
    rintro text ht rfl
    cases h with
    | read h =>
      cases h with
      | name _ hs => exact hs
      | string => rcases ht with ht | ht <;> cases ht

end Held

/-- All strings left as they are. -/
theorem Attr.mapStr_id (a : Attr) : a.mapStr id = a := by
  cases a <;> rfl

namespace Scanner

/-! ### What is found -/

theorem held_step {s t : Scanner} {spaced : Bool} (h : s.step spaced = .found t) :
    Held t.current.token t.current.attr ∧ t.current.token ≠ .initial := by
  cases goes_found h with
  | forced | lineEnd | failed | ended | fileEnd => exact ⟨.ends rfl, nofun⟩
  | token hl hmeaning =>
    have hend := hl.isEnd_eq hmeaning
    obtain ⟨first, rest, -, rfl⟩ := hl.read
    refine ⟨.read (Lexeme.carries_read hmeaning), ?_⟩
    rintro rfl
    contradiction

/-- What a scan comes to is something that is held, and not nothing. -/
theorem held_scan (s : Scanner) (spaced : Bool) :
    Held (s.scan spaced).current.token (s.scan spaced).current.attr ∧
      (s.scan spaced).current.token ≠ .initial := by
  fun_induction scan s spaced with
  | case1 s spaced t hstep => exact held_step hstep
  | case2 s spaced after t _ _ ih => exact ih

/-- Every call of a scan finds something that is held. -/
theorem held_of_mem_turns {s : Scanner} {t : Turn} (ht : t ∈ s.turns.1) :
    Held t.found.token t.found.attr := by
  fun_induction turns s with
  | case1 s count after turn heof =>
    rw [List.mem_singleton.1 ht]
    exact (held_scan s false).1
  | case2 s count after turn heof _ more last hmore ih =>
    rw [hmore] at ih
    rcases List.mem_cons.1 ht with rfl | ht
    · exact (held_scan s false).1
    · exact ih ht

/-! ### Operations -/

/-- Whether a scanner has the current token of another, up to the case of its string. -/
def Refolds (s t : Scanner) : Prop :=
  ∃ f : ShortString → ShortString, (∀ text, (f text).bytes.length = text.bytes.length) ∧
    t.current = {s.current with attr := s.current.attr.mapStr f}

theorem refolds_of_eq {s t : Scanner} (h : t.current = s.current) : s.Refolds t := by
  refine ⟨id, fun _ => rfl, ?_⟩
  rw [Attr.mapStr_id, h]

theorem refolds_toUpper (s : Scanner) : s.Refolds s.toUpper :=
  ⟨_, fun _ => List.length_map .., rfl⟩

theorem refolds_toLower (s : Scanner) : s.Refolds s.toLower :=
  ⟨_, fun _ => List.length_map .., rfl⟩

theorem refolds_enter (s : Scanner) (pushed : Except InputError InputStack) :
    s.Refolds (entering (s.enter pushed)).2 := by
  cases pushed <;> exact refolds_of_eq rfl

theorem refolds_findSubkey (s : Scanner) (keys : Array (List UInt8)) :
    s.Refolds (s.findSubkey keys).2 := by
  unfold findSubkey
  split
  · exact s.refolds_toUpper
  · exact refolds_of_eq rfl

theorem refolds_addressSize (s : Scanner) : s.Refolds s.addressSize.2 := by
  unfold addressSize
  cases AddressSize.ofOverride? s.current.token with
  | some size => exact refolds_of_eq rfl
  | none =>
    dsimp only
    -- A missing size is reported, which leaves the token as it is.
    split <;> exact s.refolds_findSubkey AddressSize.keys

/-- Only a call of `next` changes more of the current token than the case of its string. -/
theorem refolds_perform (files : FileSystem) (s : Scanner) {o : Operation} (ho : o ≠ .next) :
    s.Refolds (s.perform files o).2 := by
  cases o with
  | next => exact absurd rfl ho
  | enterFile => exact s.refolds_enter _
  | enterBytes => exact s.refolds_enter _
  | leave =>
    unfold perform leave?
    cases s.input.pop? <;> exact refolds_of_eq rfl
  | toUpper => exact s.refolds_toUpper
  | toLower => exact s.refolds_toLower
  | findSubkey keys => exact s.refolds_findSubkey keys
  | addressSize => exact s.refolds_addressSize
  | forceEnd | setFeature | setCpu | setLocalChar | setCharmap => exact refolds_of_eq rfl

/-! ### Reachable scanners -/

/-- The scanners that a caller can come to. The files may change between two operations. -/
inductive Reachable : Scanner → Prop where
  | ofBytes (config : Config) (name : String) (bytes : List UInt8) :
      Reachable (.ofBytes config name bytes)
  | ofFile {files : FileSystem} {config : Config} {path : String} {s : Scanner} :
      Scanner.ofFile files config path = .ok s → Reachable s
  | perform {s : Scanner} (files : FileSystem) (o : Operation) :
      Reachable s → Reachable (s.perform files o).2
  | configure {s : Scanner} (config : Config) (charmap : Charmap) :
      Reachable s → Reachable {s with config, charmap}

theorem Reachable.performAll {s : Scanner} (h : Reachable s) (files : FileSystem)
    (operations : List Operation) : Reachable (s.performAll files operations) := by
  induction operations generalizing s with
  | nil => exact h
  | cons o more ih => exact ih (h.perform files o)

/-! ### The invariant -/

/-- Every operation keeps to the tokens that a scanner can come to. -/
theorem held_perform (files : FileSystem) {s : Scanner} (o : Operation)
    (h : Held s.current.token s.current.attr) :
    Held (s.perform files o).2.current.token (s.perform files o).2.current.attr := by
  by_cases ho : o = .next
  · subst ho
    exact (s.held_scan false).1
  · obtain ⟨f, hf, hcurrent⟩ := s.refolds_perform files ho
    rw [hcurrent]
    exact h.mapStr hf

theorem Reachable.held {s : Scanner} (h : Reachable s) : Held s.current.token s.current.attr := by
  induction h with
  | ofBytes => exact .ends rfl
  | @ofFile files config path s hopen =>
    unfold Scanner.ofFile at hopen
    cases hinput : InputStack.empty.pushFile files path with
    | error e =>
      rw [hinput] at hopen
      contradiction
    | ok input =>
      rw [hinput] at hopen
      cases hopen
      exact .ends rfl
  | perform files o _ ih => exact held_perform files o ih
  | configure _ _ _ ih => exact ih

/-- **A token and its attribute fit together**, whatever a caller has done. What a call of `next`
returns is the token it has come to, and neither the one that stands for none nor one that is put in
by an expansion. -/
theorem attribute_of_reachable {s : Scanner} (h : Reachable s) :
    Consistent s.current ∧
      ∀ files, ∃ t, s.perform files .next = (.found t, s.next) ∧ t = s.next.current.token ∧
        t ≠ .initial ∧ t ≠ .macroParameter ∧ t ≠ .repeatCounter := by
  obtain ⟨hnext, hinitial⟩ := s.held_scan false
  obtain ⟨hparameter, hcounter⟩ := hnext.not_putIn
  exact ⟨h.held.consistent, fun files => ⟨_, rfl, rfl, hinitial, hparameter, hcounter⟩⟩

/-- A name is found in a text and folded, and another text is entered under it. -/
theorem attribute_of_reachable_folded :
    let s := (ofBytes {} "t.s" [Byte.lowerA, Byte.lowerB]).performAll (fun _ => .error .notFound)
      [.next, .toUpper, .enterBytes none [Byte.colon]]
    Reachable s ∧ Consistent s.current ∧
      ∀ files, ∃ t, s.perform files .next = (.found t, s.next) ∧ t = s.next.current.token ∧
        t ≠ .initial ∧ t ≠ .macroParameter ∧ t ≠ .repeatCounter := by
  intro s
  have h : Reachable s := (Reachable.ofBytes ..).performAll ..
  exact ⟨h, attribute_of_reachable h⟩

end Scanner
end AsmScan
