import AsmScan.Proofs.Lexeme.Classify
import AsmScan.Proofs.Scanner.Call

/-! Words that a scanner finds.

A word at the front of what is unread, alone or behind a dot or the mark of local labels, is
taken whole. A scan finds what the word is; only a directive that does not exist is reported
and passed over (`scan_word`). -/
namespace AsmScan.Scanner

/-- **A word is found as what it is, and is taken to its end.** -/
theorem scan_word {s : Scanner} (hforced : s.forcedEnd = false) {lead word after : List UInt8}
    (hlead : lead = [] ∨ lead = [Byte.dot] ∨ lead = [s.config.localChar.byte])
    (hword : Lexeme.WholeWord s.config.features word after)
    (hunread : s.input.unread = lead ++ (word ++ after)) (spaced : Bool) :
    ∃ outcome size reports, Lexeme.Classified s.config word after lead outcome size reports ∧
      let taken : Scanner :=
        { s with
          input := s.input.advance size
          diagnostics := s.diagnostics.add (reports.errors s.input.pos) }
      s.scan spaced =
        match outcome with
        | some (t, attr) => {taken with current := ⟨t, attr, spaced, s.input.pos⟩}
        | none => taken.scan spaced := by
  obtain ⟨outcome, size, reports, hclassified, first, rest, hbytes, hmeaning, hsize, hreported⟩ :=
    Lexeme.read_classified s.charmap hlead hword
  obtain ⟨problems, hfindings, herrors⟩ := hreported
  refine ⟨outcome, size, reports, hclassified, ?_⟩
  intro taken
  have hstep := step_read hforced (hunread.trans hbytes) spaced
  have hpast : s.past (Lexeme.read s.config s.charmap first rest) = taken := by
    rw [past, Lexeme.messages, hsize, hfindings, messages_atStart, herrors]
  rw [takeLexeme_eq, hmeaning, hpast] at hstep
  cases outcome with
  | some found => exact scan_found hstep
  | none => exact scan_onward hstep

/-- A letter that is no register, before a colon. -/
theorem scan_word_override :
    let s := ofBytes {} "t.s" [Byte.lowerF, Byte.colon, Byte.dot]
    s.forcedEnd = false ∧ Lexeme.WholeWord s.config.features [Byte.lowerF] [Byte.colon, Byte.dot] ∧
      s.input.unread = [] ++ ([Byte.lowerF] ++ [Byte.colon, Byte.dot]) ∧
      s.next.current = ⟨.overrideFar, .none, false, s.input.pos⟩ ∧
      s.next.input.unread = [Byte.dot] ∧ s.next.diagnostics = s.diagnostics := by
  intro s
  have hword : Lexeme.WholeWord s.config.features [Byte.lowerF] [Byte.colon, Byte.dot] :=
    Lexeme.wholeWord_iff.2 ⟨rfl, List.all_eq_true.1 rfl, fun b hb => by cases hb; rfl⟩
  have hover : Lexeme.IsOverride [Byte.lowerF] [Byte.colon, Byte.dot] .overrideFar :=
    ⟨_, rfl, by decide, rfl⟩
  obtain ⟨outcome, size, reports, hclassified, hscan⟩ :=
    scan_word (s := s) rfl (.inl rfl) hword rfl false
  cases hclassified with
  | override h =>
    obtain ⟨letter, hletter, hmem, -⟩ := h
    cases hletter
    have htoken : some Token.overrideFar = some _ := Lexeme.override?_eq_some_iff.2 hmem
    cases htoken
    have hnext : s.next = _ := hscan
    refine ⟨rfl, hword, rfl, ?_, ?_, ?_⟩ <;> rw [hnext]
    · rfl
    · exact Diagnostics.add_nil _
  | register h | mnemonic h | identifier h => exact absurd hover (h _)

end AsmScan.Scanner
