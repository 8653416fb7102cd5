import AsmScan.Proofs.Lexeme.Literal
import AsmScan.Proofs.Scanner.Frame

/-! Strings that a scanner finds.

Where escapes are decoded, a string that is written between double quotes, in whichever
of the ways there are for each of its bytes, is found as it is: no character map has a
say in it, nothing is reported, and the scan goes on behind the closing quote
(`scan_spells`). -/
namespace AsmScan.Scanner

/-- **A string is found as it was meant**, and the scan stands right behind it. -/
theorem scan_spells {s : Scanner} (hforced : s.forcedEnd = false)
    (hescapes : s.config.features.stringEscapes = true) {bytes text after : List UInt8}
    (hlength : bytes.length ≤ 255) (h : Quoted.Spells Byte.doubleQuote bytes text)
    (hunread : s.input.unread = Byte.doubleQuote :: (text ++ Byte.doubleQuote :: after))
    (spaced : Bool) :
    s.scan spaced =
        { s with
          input := s.input.advance (text.length + 2)
          current := ⟨.strConst, .str ⟨bytes, hlength⟩, spaced, s.input.pos⟩ } ∧
      (s.scan spaced).input.unread = after := by
  have hread : Lexeme.read s.config s.charmap Byte.doubleQuote (text ++ Byte.doubleQuote :: after) =
      { meaning := .token .strConst (.str ⟨bytes, hlength⟩)
        size := text.length + 2 } := by
    have hrule : Lexeme.read s.config s.charmap Byte.doubleQuote
        (text ++ Byte.doubleQuote :: after) =
        Lexeme.strLiteral s.config.features (text ++ Byte.doubleQuote :: after) :=
      if_neg (Lexeme.ne_mark s.config (by decide))
    obtain ⟨hcontent, hsize, hfindings⟩ := Quoted.read_spells (.inl rfl) h after
    rw [hrule]
    unfold Lexeme.strLiteral
    simp only [hescapes, hcontent, hsize, hfindings hlength,
      ShortString.truncate_of_length_le hlength, Lexeme.mk.injEq, and_true, true_and]
    omega
  have hscan : s.scan spaced =
      { s with
        input := s.input.advance (text.length + 2)
        current := ⟨.strConst, .str ⟨bytes, hlength⟩, spaced, s.input.pos⟩ } := by
    apply scan_found
    unfold step
    rw [if_neg (by simp [hforced]), hunread]
    dsimp only
    rw [hread, takeLexeme_eq]
    simp only [emit, past, Lexeme.messages, List.map_nil, Diagnostics.add_nil]
  refine ⟨hscan, ?_⟩
  have hbytes : Byte.doubleQuote :: (text ++ Byte.doubleQuote :: after) =
      (Byte.doubleQuote :: text ++ [Byte.doubleQuote]) ++ after := by
    simp
  rw [hscan]
  show (s.input.advance (text.length + 2)).unread = after
  rw [InputStack.unread_advance, hunread, hbytes]
  exact List.drop_left' (by simp)

/-- A byte as itself, a name that would end the literal, one digit and two, and a byte that no
character constant would keep. -/
theorem scan_spells_mixed :
    let text : List UInt8 :=
      [Byte.lowerA, Byte.backslash, Byte.doubleQuote, Byte.backslash, Byte.lowerX, 0x37, Byte.upperH,
       Byte.backslash, Byte.upperX, Byte.lowerF, Byte.upperF]
    let s := {ofBytes {} "t.s" (Byte.doubleQuote :: (text ++ [Byte.doubleQuote, Byte.upperA])) with
      charmap := .petscii}
    let bytes : List UInt8 := [Byte.lowerA, Byte.doubleQuote, 0x07, Byte.upperH, 0xFF]
    s.forcedEnd = false ∧ s.config.features.stringEscapes = true ∧
      bytes.length ≤ 255 ∧ Quoted.Spells Byte.doubleQuote bytes text ∧
      s.input.unread = Byte.doubleQuote :: (text ++ Byte.doubleQuote :: [Byte.upperA]) ∧
      s.next.current = ⟨.strConst, .str (.truncate bytes), false, ⟨"t.s", ⟨1, 1⟩⟩⟩ ∧
      s.next.diagnostics = s.diagnostics ∧ s.next.input.unread = [Byte.upperA] := by
  intro text s bytes
  have hspells : Quoted.Spells Byte.doubleQuote bytes text := by
    show Quoted.Spells _ bytes ([_] ++ ([_, _] ++ ([_, _, _] ++ ([_] ++ ([_, _, _, _] ++ [])))))
    refine .cons (.self ?_ ?_ ?_ ?_) <| .cons (.name ?_) <| .cons (.digit (.inl rfl) ?_ ?digit) <|
      .cons (.self ?_ ?_ ?_ ?_) <| .cons (.pair (.inr rfl) ?_ ?_) .nil
    case digit =>
      rintro next ⟨⟩
      decide
    all_goals decide
  have hlength : bytes.length ≤ 255 := by decide
  obtain ⟨hnext, hafter⟩ := scan_spells (s := s) rfl rfl hlength hspells rfl false
  have hnext : s.next = _ := hnext
  refine ⟨rfl, rfl, hlength, hspells, rfl, ?_, by rw [hnext], hafter⟩
  rw [hnext]
  rfl

end AsmScan.Scanner
