import AsmScan.Proofs.Lexeme.Feature
import AsmScan.Proofs.Lexeme.Verbatim
import AsmScan.Proofs.Scanner.Line

/-! Literals that a scanner finds.

Behind a quote there is a literal, whatever the bytes. It is found up to the quote that ends
it, or else up to the end of its line, and just what is wrong with it is reported, in order
(`scan_quoted`). In single quotes it is one character, or a string where such strings are
allowed (`scan_singleQuoted`). To decode escapes that do not exist makes reports, and changes
the string only where the mark of a hexadecimal one is a capital (`scan_unknown`). -/
namespace AsmScan.Scanner

/-- What is reported of a literal itself: of its escapes, of its length and of its end. -/
def literalReports (faults : List Finding) (length : Nat) (closed : Bool) (pos : Position) :
    List Message :=
  faults.map (·.message pos) ++
    (if 255 < length then [Problem.stringTooLong.toMessage pos] else []) ++
    if closed then [] else [Problem.unterminatedString.toMessage pos]

theorem wrongs_messages (faults : List Finding) (length : Nat) (closed : Bool) (pos : Position) :
    (Quoted.wrongs faults length closed).map (·.message pos) =
      literalReports faults length closed pos := by
  have hstart (condition : Prop) [Decidable condition] (problem : Problem) :
      (Finding.atStartIf condition problem).map (·.message pos) =
        if condition then [problem.toMessage pos] else [] := by
    by_cases h : condition <;> simp only [Finding.atStartIf, h] <;> rfl
  rw [Quoted.wrongs, List.map_append, List.map_append, hstart, literalReports]
  cases closed <;> rfl

section Literals
variable {s : Scanner} {quote : UInt8} {body after bytes : List UInt8} {faults : List Finding}

/-- A literal is found whole. -/
theorem scan_literal (hforced : s.forcedEnd = false)
    (hquote : quote = Byte.doubleQuote ∨ quote = Byte.singleQuote)
    (hunread : s.input.unread = quote :: (body ++ after))
    (h : Quoted.Literal quote s.config.features.stringEscapes body after bytes faults)
    (spaced : Bool) :
    let closed := decide (after.head? = some quote)
    ∃ t attr own,
      Lexeme.Constant s.config.features s.charmap quote closed (.truncate bytes) t attr own ∧
      s.scan spaced =
        { s with
          input := s.input.advance (1 + (body.length + closed.toNat))
          current := ⟨t, attr, spaced, s.input.pos⟩
          diagnostics := s.diagnostics.add (literalReports faults bytes.length closed s.input.pos ++
            own.map (·.toMessage s.input.pos)) } := by
  intro closed
  obtain ⟨t, attr, own, hconstant, hread⟩ :=
    Lexeme.read_constant s.config s.charmap hquote h
  refine ⟨t, attr, own, hconstant, scan_found ?_⟩
  rw [step_read hforced hunread, hread, takeLexeme_eq]
  simp only [emit, past, Lexeme.messages, List.map_append, wrongs_messages, messages_atStart,
    closed]

/-- A string that is closed is found up to its second quote. -/
theorem scan_string (hforced : s.forcedEnd = false)
    (hunread : s.input.unread = Byte.doubleQuote :: (body ++ Byte.doubleQuote :: after))
    (h : Quoted.Literal Byte.doubleQuote s.config.features.stringEscapes body
      (Byte.doubleQuote :: after) bytes faults) (spaced : Bool) :
    s.scan spaced =
      { s with
        input := s.input.advance (body.length + 2)
        current := ⟨.strConst, .str (.truncate bytes), spaced, s.input.pos⟩
        diagnostics := s.diagnostics.add (faults.map (·.message s.input.pos) ++
          if 255 < bytes.length then [Problem.stringTooLong.toMessage s.input.pos] else []) } := by
  obtain ⟨t, attr, own, hconstant, hscan⟩ := scan_literal hforced (.inl rfl) hunread h spaced
  obtain ⟨rfl, rfl, rfl⟩ := hconstant.eq_string
  rw [hscan]
  simp [literalReports, Nat.add_comm 1]

end Literals

/-- As long as a literal is read the scan stays on its line. -/
theorem pos_advance_quoted {s : Scanner} {quote : UInt8} {body after : List UInt8}
    (hunread : s.input.unread = quote :: (body ++ after)) (hquote : quote ≠ Byte.lineFeed)
    (hbody : Byte.lineFeed ∉ body) {count : Nat} (hcount : count ≤ body.length + 1) :
    (s.input.advance count).pos = {s.input.pos with loc := s.input.pos.loc.right count} := by
  have htake : s.input.unread.take count = (quote :: body).take count := by
    rw [hunread, ← List.cons_append]
    exact List.take_append_of_le_length hcount
  have hfeed : Byte.lineFeed ∉ (quote :: body).take count := by
    intro h
    rcases List.mem_cons.1 (List.mem_of_mem_take h) with h | h
    · exact hquote h.symm
    · exact hbody h
  rw [InputStack.pos_advance, htake, Position.past_eq _ hfeed, List.length_take_of_le hcount]

/-- **Escapes that do not exist are kept, but for the case of a hexadecimal mark.** Where no escape in
a string exists, decoding the escapes makes one report for each, at the byte behind its backslash, and
changes nothing else but capital marks, which come out as small ones. -/
theorem scan_unknown {s : Scanner} (hforced : s.forcedEnd = false) {body after : List UInt8}
    (hplain : Byte.doubleQuote ∉ body ∧ Byte.carriageReturn ∉ body ∧ Byte.lineFeed ∉ body)
    (hunknown : Quoted.Unknown body)
    (hunread : s.input.unread = Byte.doubleQuote :: (body ++ Byte.doubleQuote :: after))
    (spaced : Bool) :
    let run (decoding : Bool) := {s with config := s.config.set .stringEscapes decoding}.scan spaced
    let tooLong :=
      if 255 < body.length then [Problem.stringTooLong.toMessage s.input.pos] else []
    (run false).current = ⟨.strConst, .str (.truncate body), spaced, s.input.pos⟩ ∧
      (run true).current =
        ⟨.strConst, .str (.truncate (Quoted.smallMarks body)), spaced, s.input.pos⟩ ∧
      ((run true).current = (run false).current ↔
        ¬ [Byte.backslash, Byte.upperX] <:+: body.take 255) ∧
      (run false).diagnostics = s.diagnostics.add tooLong ∧
      ∃ reports : List Message,
        reports.map (fun m => (m.kind, m.pos)) =
          (body.idxsOf Byte.backslash 1).map (fun place =>
            (.invalidCharacter, (s.input.advance (place + 1)).pos)) ∧
        (run true).diagnostics = s.diagnostics.add (reports ++ tooLong) := by
  intro run tooLong
  obtain ⟨hverbatim, faults, hdecoded, hfaults⟩ :=
    Quoted.literal_unknown hplain hunknown after
  have hoff : run false = _ := scan_string (s := {s with config := s.config.set .stringEscapes false})
    hforced hunread hverbatim spaced
  have hon : run true = _ := scan_string (s := {s with config := s.config.set .stringEscapes true})
    hforced hunread hdecoded spaced
  have hplaces : (faults.map (·.message s.input.pos)).map (fun m => (m.kind, m.pos)) =
      (body.idxsOf Byte.backslash 1).map fun place =>
        (.invalidCharacter, (s.input.advance (place + 1)).pos) := by
    calc (faults.map (·.message s.input.pos)).map (fun m => (m.kind, m.pos))
      _ = (faults.map fun f => (f.problem.kind, f.offset)).map fun e =>
          (e.1, {s.input.pos with loc := s.input.pos.loc.right e.2}) := by
        rw [List.map_map, List.map_map]
        rfl
      _ = _ := by
        rw [hfaults, List.map_map]
        refine List.map_congr_left fun place hplace => ?_
        have hcount : place + 1 ≤ body.length + 1 := List.lt_add_of_mem_idxsOf place hplace
        rw [pos_advance_quoted hunread (by decide) hplain.2.2 hcount]
        rfl
  refine ⟨by rw [hoff], by rw [hon], ?_, ?_, _, hplaces, ?_⟩
  · rw [hoff, hon, ← Quoted.smallMarks_eq_iff, ← Quoted.take_smallMarks]
    simp [ShortString.truncate, ShortString.maxLength]
  · rw [hoff]
    rfl
  · rw [hon, Quoted.length_smallMarks]

/-- An unknown escape and a small mark right before another. -/
theorem scan_unknown_mixed :
    let body := [Byte.backslash, Byte.upperA, Byte.backslash, Byte.lowerX, Byte.backslash, Byte.upperH]
    let s := ofBytes {} "t.s" (Byte.doubleQuote :: (body ++ [Byte.doubleQuote]))
    let run (decoding : Bool) := {s with config := s.config.set .stringEscapes decoding}.next
    s.forcedEnd = false ∧
      (Byte.doubleQuote ∉ body ∧ Byte.carriageReturn ∉ body ∧ Byte.lineFeed ∉ body) ∧
      Quoted.Unknown body ∧
      s.input.unread = Byte.doubleQuote :: (body ++ [Byte.doubleQuote]) ∧
      (run true).current = ⟨.strConst, .str (.truncate body), false, ⟨"t.s", ⟨1, 1⟩⟩⟩ ∧
      ((run true).diagnostics.since s.diagnostics.count).map (fun m => (m.kind, m.pos)) =
        [(.invalidCharacter, ⟨"t.s", ⟨1, 3⟩⟩), (.invalidCharacter, ⟨"t.s", ⟨1, 5⟩⟩),
          (.invalidCharacter, ⟨"t.s", ⟨1, 7⟩⟩)] := by
  intro body s run
  have hplain : Byte.doubleQuote ∉ body ∧ Byte.carriageReturn ∉ body ∧ Byte.lineFeed ∉ body := by
    decide
  have hunknown : Quoted.Unknown body := by decide
  obtain ⟨-, hcurrent, -, -, reports, hreports, hdiagnostics⟩ :=
    scan_unknown (s := s) rfl hplain hunknown rfl false
  refine ⟨rfl, hplain, hunknown, rfl, hcurrent, ?_⟩
  have hadded : (run true).diagnostics = s.diagnostics.add (reports ++ []) := hdiagnostics
  rw [Diagnostics.since_of_eq hadded, List.append_nil, hreports]
  rfl

/-- A capital mark without digits is not kept as it is written. -/
theorem capital_mark_changes :
    let body := [Byte.backslash, Byte.upperX, Byte.lowerZ]
    let s := ofBytes {} "t.s" (Byte.doubleQuote :: (body ++ [Byte.doubleQuote]))
    let run (decoding : Bool) := {s with config := s.config.set .stringEscapes decoding}.next
    (Byte.doubleQuote ∉ body ∧ Byte.carriageReturn ∉ body ∧ Byte.lineFeed ∉ body) ∧
      Quoted.Unknown body ∧
      (run false).current.attr = .str (.truncate body) ∧
      (run true).current.attr = .str (.truncate [Byte.backslash, Byte.lowerX, Byte.lowerZ]) ∧
      (run true).current.attr ≠ (run false).current.attr := by
  intro body s run
  have hplain : Byte.doubleQuote ∉ body ∧ Byte.carriageReturn ∉ body ∧ Byte.lineFeed ∉ body := by
    decide
  have hunknown : Quoted.Unknown body := by decide
  obtain ⟨hverbatim, faults, hdecoded, -⟩ := Quoted.literal_unknown hplain hunknown []
  have hoff : run false = _ := scan_string (s := {s with config := s.config.set .stringEscapes false})
    rfl rfl hverbatim false
  have hon : run true = _ := scan_string (s := {s with config := s.config.set .stringEscapes true})
    rfl rfl hdecoded false
  have hkept : (run false).current.attr = .str (.truncate body) := by rw [hoff]
  have hchanged : (run true).current.attr =
      .str (.truncate [Byte.backslash, Byte.lowerX, Byte.lowerZ]) := by
    rw [hon]
    rfl
  refine ⟨hplain, hunknown, hkept, hchanged, ?_⟩
  rw [hkept, hchanged]
  decide

end AsmScan.Scanner
