import AsmScan.Proofs.Input.Stack
import AsmScan.Proofs.Lexeme.Format
import AsmScan.Proofs.Scanner.Call

/-! Values that a scanner finds.

Where a formatted value is at the front of what is unread, and no letter, digit or
underscore behind it, a scan takes it whole and no more, in any base. It finds an integer
constant of that value, if the value is within the limit of integer constants: so two
values are never found alike. A value past the limit is found as zero and reported as too
large, with nothing else (`scan_format`). -/
namespace AsmScan.Scanner

/-- What a scanner has yet to read begins with a formatted value, and with no more of a word. -/
structure Faces (s : Scanner) (base : Base) (v : Nat) (after : List UInt8) : Prop where
  forced : s.forcedEnd = false
  unread : s.input.unread = utf8 (base.format v) ++ after
  unworded : Unworded after

/-- A scanner of a text faces what the text begins with. -/
theorem faces_ofBytes (c : Config) (name : String) (base : Base) (v : Nat) {after : List UInt8}
    (h : Unworded after) : (ofBytes c name (utf8 (base.format v) ++ after)).Faces base v after :=
  ⟨rfl, rfl, h⟩

/-- What is reported of a formatted value. -/
def formatMessages (v : Nat) (pos : Position) : List Message :=
  if v ≤ 0xFFFFFFFF then [] else [⟨.error, .integerOverflow, pos, "integer constant too large"⟩]

section Formatted
variable {s : Scanner} {base : Base} {v : Nat} {after : List UInt8}

/-- A scan takes a formatted value whole. -/
theorem Faces.scan_eq (h : s.Faces base v after) (spaced : Bool) :
    s.scan spaced =
      { s with
        input := s.input.advance (utf8 (base.format v)).length
        current := ⟨.intConst, .int (if v ≤ 0xFFFFFFFF then v else 0), spaced, s.input.pos⟩
        diagnostics := s.diagnostics.add (formatMessages v s.input.pos) } := by
  obtain ⟨first, rest, htext, hread⟩ := Lexeme.read_format s.config s.charmap base v
  have hunread : s.input.unread = first :: (rest ++ after) := by
    rw [h.unread, htext, List.cons_append]
  have hlength : (utf8 (base.format v)).length = 1 + rest.length := by
    rw [htext, List.length_cons, Nat.add_comm]
  apply scan_found
  rw [step_read h.forced hunread, hread after h.unworded, Lexeme.number_digits, takeLexeme_eq,
    hlength, formatMessages]
  by_cases hle : v ≤ 0xFFFFFFFF
  · simp only [if_pos hle, emit, past, Lexeme.messages, List.map_nil]
  · simp only [if_neg hle, emit, past, Lexeme.messages, List.map_cons, List.map_nil]
    rfl

/-- **Values are read back as they are formatted, up to the limit of integer constants.** A scan leaves
what stands behind a formatted value, and finds an integer constant: the value itself, with nothing
reported, or zero for a value past the limit, which is reported as too large at its first byte. Two
values within the limit are never found alike, whatever bases they are formatted in. -/
theorem scan_format (h : s.Faces base v after) (spaced : Bool) :
    s.scan spaced =
        { s with
          input := s.input.advance (utf8 (base.format v)).length
          current := ⟨.intConst, .int (if v ≤ 0xFFFFFFFF then v else 0), spaced, s.input.pos⟩
          diagnostics := s.diagnostics.add (formatMessages v s.input.pos) } ∧
      (s.scan spaced).input.unread = after ∧
      ∀ s' base' v' after' spaced', Faces s' base' v' after' → v ≤ 0xFFFFFFFF → v' ≤ 0xFFFFFFFF →
        (s'.scan spaced').current.attr = (s.scan spaced).current.attr → v' = v := by
  refine ⟨h.scan_eq spaced, ?_, ?_⟩
  · rw [h.scan_eq]
    show (s.input.advance _).unread = after
    rw [InputStack.unread_advance, h.unread, List.drop_left]
  · intro s' base' v' after' spaced' h' hv hv' halike
    rw [h'.scan_eq, h.scan_eq] at halike
    simpa [hv, hv'] using halike

/-- The largest value, the one before it in another base, and one that is too large. -/
theorem scan_format_limit :
    let largest := ofBytes {} "t.s" (utf8 (Base.octal.format 0xFFFFFFFF) ++ [Byte.comma])
    let smaller := ofBytes {} "t.s" (utf8 (Base.decimal.format 0xFFFFFFFE))
    let past := ofBytes {} "t.s" (utf8 (Base.hexadecimal.format 0x100000000) ++ [Byte.comma])
    largest.next.current = ⟨.intConst, .int 0xFFFFFFFF, false, largest.input.pos⟩ ∧
      largest.next.diagnostics = largest.diagnostics ∧
      largest.next.input.unread = [Byte.comma] ∧
      smaller.next.current.attr ≠ largest.next.current.attr ∧
      past.next.current = ⟨.intConst, .int 0, false, past.input.pos⟩ ∧
      past.next.diagnostics =
        past.diagnostics.add [⟨.error, .integerOverflow, past.input.pos, "integer constant too large"⟩] ∧
      past.next.input.unread = [Byte.comma] := by
  intro largest smaller past
  have hcomma : Unworded [Byte.comma] := by
    rintro _ ⟨⟩
    rfl
  have hsmaller : smaller.Faces .decimal 0xFFFFFFFE [] :=
    ⟨rfl, (List.append_nil _).symm, nofun⟩
  obtain ⟨hlargest, hleft, hdistinct⟩ :=
    scan_format (faces_ofBytes {} "t.s" .octal 0xFFFFFFFF hcomma) false
  obtain ⟨hpast, hmore, -⟩ :=
    scan_format (faces_ofBytes {} "t.s" .hexadecimal 0x100000000 hcomma) false
  have hlargest' : largest.next = _ := hlargest
  have hpast' : past.next = _ := hpast
  refine ⟨?_, ?_, hleft, fun halike => ?_, ?_, ?_, hmore⟩
  · rw [hlargest']
    rfl
  · rw [hlargest']
    exact Diagnostics.add_nil _
  · have := hdistinct _ _ _ _ false hsmaller (by decide) (by decide) halike
    contradiction
  · rw [hpast']
    rfl
  · rw [hpast']
    rfl

end Formatted
end AsmScan.Scanner
