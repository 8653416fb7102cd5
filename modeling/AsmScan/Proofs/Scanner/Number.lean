import AsmScan.Proofs.Lexeme.Written
import AsmScan.Proofs.Numeral.Positional
import AsmScan.Proofs.Scanner.Call

/-! Numbers that a scanner finds.

Whatever begins as a number does is written in one of the notations, and no matter in
which, a scan takes it whole and no more. It finds an integer constant: the value by the
places of the digits, if that is within the limit, and zero if there is something wrong
with the number, which then is reported at its first byte (`scan_written`). -/
namespace AsmScan.Scanner

/-- A scan takes a number as its notation has it. -/
theorem scan_of_written {s : Scanner} {radix : Nat} {run lexeme after : List UInt8}
    (hforced : s.forcedEnd = false) (hunread : s.input.unread = lexeme ++ after)
    (h : Lexeme.Written s.config.features after radix run lexeme) (spaced : Bool) :
    ∃ worth messages, Numeral.Judges radix run s.input.pos worth messages ∧
      s.scan spaced =
        { s with
          input := s.input.advance lexeme.length
          current := ⟨.intConst, .int worth, spaced, s.input.pos⟩
          diagnostics := s.diagnostics.add messages } := by
  obtain ⟨base, first, rest, rfl, rfl, hread⟩ := Lexeme.read_written s.charmap h
  obtain ⟨worth, problems, hjudges, hnumber⟩ :=
    Numeral.judges_number base h.goes (1 + rest.length) (by omega)
  have hsize : (first :: rest).length = 1 + rest.length := Nat.add_comm ..
  refine ⟨worth, _, hjudges s.input.pos, scan_found ?_⟩
  rw [hnumber] at hread
  unfold step
  rw [if_neg (by simp [hforced]), hunread]
  dsimp only [List.cons_append]
  rw [hread, takeLexeme_eq]
  simp only [emit, past, Lexeme.messages, messages_atStart, hsize]

/-- **A number is found whole, with its positional value.** What begins as a number does is written in a
notation for one, and in whichever it is written, its radix and its run tell what is found and what
is reported. -/
theorem scan_written {s : Scanner} (hforced : s.forcedEnd = false) (spaced : Bool) :
    (Lexeme.Begins s.input.unread → ∃ radix run lexeme after,
      s.input.unread = lexeme ++ after ∧ Lexeme.Written s.config.features after radix run lexeme) ∧
    ∀ radix run lexeme after, s.input.unread = lexeme ++ after →
      Lexeme.Written s.config.features after radix run lexeme →
      ∃ worth messages, Numeral.Judges radix run s.input.pos worth messages ∧
        s.scan spaced =
          { s with
            input := s.input.advance lexeme.length
            current := ⟨.intConst, .int worth, spaced, s.input.pos⟩
            diagnostics := s.diagnostics.add messages } :=
  ⟨Lexeme.exists_written _, fun _ _ _ _ hunread h => scan_of_written hforced hunread h spaced⟩

/-- A hexadecimal number with an underscore in it and its mark behind it. -/
theorem scan_written_suffix :
    let s := ofBytes {features := {underlineInNumbers := true}} "t.s"
      [Byte.one, Byte.underscore, Byte.zero, 0x68, Byte.comma]
    s.forcedEnd = false ∧ Lexeme.Begins s.input.unread ∧
      Lexeme.Written s.config.features [Byte.comma] 16
        [Byte.one, Byte.underscore, Byte.zero] [Byte.one, Byte.underscore, Byte.zero, 0x68] ∧
      s.next.current = ⟨.intConst, .int 16, false, s.input.pos⟩ ∧
      s.next.input = s.input.advance 4 ∧ s.next.diagnostics = s.diagnostics := by
  intro s
  have hrun : Lexeme.Run s.config.features [Byte.one, Byte.underscore, Byte.zero] [0x68] :=
    Lexeme.run_iff.2 ⟨List.all_eq_true.1 rfl, fun b hb => by cases hb; rfl⟩
  have hwritten : Lexeme.Written s.config.features [Byte.comma] 16
      [Byte.one, Byte.underscore, Byte.zero] [Byte.one, Byte.underscore, Byte.zero, 0x68] :=
    .suffix (by decide) hrun (by decide)
  have hvalue : Numeral.value 16 [Byte.one, Byte.underscore, Byte.zero] = 16 := by decide
  have hdigits : Numeral.digitsOf [Byte.one, Byte.underscore, Byte.zero] = [1, 0] := by decide
  obtain ⟨worth, messages, hjudges, hscan⟩ :=
    (scan_written (s := s) rfl false).2 _ _ _ [Byte.comma] rfl hwritten
  have hnext : s.next = _ := hscan
  refine ⟨rfl, .digit (by decide), hwritten, ?_⟩
  cases hjudges with
  | worth =>
    rw [hvalue] at hnext
    refine ⟨?_, ?_, ?_⟩ <;> rw [hnext]
    · rfl
    · rfl
    · exact Diagnostics.add_nil _
  | tooLarge _ hpast =>
    rw [hvalue] at hpast
    omega
  | badDigits hbad =>
    rw [hdigits] at hbad
    simp at hbad

end AsmScan.Scanner
