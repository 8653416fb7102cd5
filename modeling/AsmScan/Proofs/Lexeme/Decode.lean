import AsmScan.Proofs.Lexeme.Case
import AsmScan.Proofs.Lexeme.Extent

/-! Literals as they are found.

Where escapes are decoded, what a literal holds falls into parts (`Part`): bytes, each in one
of the ways to write it, escapes that do not exist, and perhaps a backslash at the very end.
Every text behind a quote can be seen so (`exists_literal`), and so it is read
(`read_literal`), as a string or as one character (`read_constant`). -/
namespace AsmScan

namespace Quoted

/-! ### What a literal holds -/

/-- The parts that a literal is made of, before what else it holds: what they stand for, and what is
wrong with them. -/
inductive Part (quote : UInt8) (after : List UInt8) :
    List UInt8 → List UInt8 → Option Problem → Prop where
  | byte {b : UInt8} {part : List UInt8} : Spelling quote b after part →
      Part quote after part [b] none
  | unknown {b : UInt8} : b ∉ names.map Prod.fst → ¬ (b = Byte.lowerX ∨ b = Byte.upperX) →
      Part quote after [Byte.backslash, b] [Byte.backslash, b] (some (.unknownEscape b))
  /-- Whatever the case of the letter, a small one is held. -/
  | noDigits {x : UInt8} : x = Byte.lowerX ∨ x = Byte.upperX →
      (∀ next ∈ after.head?, next ∉ hexDigits.map Prod.fst) →
      Part quote after [Byte.backslash, x] [Byte.backslash, Byte.lowerX]
        (some .hexEscapeWithoutDigits)
  /-- There is nothing to escape at the end of a line. -/
  | last : after = [] → Part quote after [Byte.backslash] [Byte.backslash] none

/-- A text in parts, from an offset on: all that it stands for, however much, and all that is wrong
with it, each at the byte behind the backslash. -/
inductive Decodes (quote : UInt8) : Nat → List UInt8 → List UInt8 → List Finding → Prop where
  | nil {offset : Nat} : Decodes quote offset [] [] []
  | cons {offset : Nat} {part held text bytes : List UInt8} {problem : Option Problem}
      {faults : List Finding} : Part quote text part held problem →
      Decodes quote (offset + part.length) text bytes faults →
      Decodes quote offset (part ++ text) (held ++ bytes)
        ((problem.map (⟨offset + 1, ·⟩)).toList ++ faults)

/-- What is written behind a quote: the body of a literal and what is behind it, the bytes that the
body stands for, and the faults in it. Without escapes it stands for itself. -/
structure Literal (quote : UInt8) (escapes : Bool) (body after bytes : List UInt8)
    (faults : List Finding) : Prop where
  extent : Extent quote escapes body after
  decoded : escapes = true → Decodes quote 1 body bytes faults
  verbatim : escapes = false → bytes = body ∧ faults = []

/-- What is wrong in a literal is wrong with characters. -/
theorem Decodes.kind {quote : UInt8} {offset : Nat} {text bytes : List UInt8}
    {faults : List Finding} (h : Decodes quote offset text bytes faults) :
    ∀ f ∈ faults, f.problem.kind = .invalidCharacter := by
  induction h with
  | nil => exact nofun
  | cons hpart _ ih =>
    intro f hf
    rcases List.mem_append.1 hf with hf | hf
    · cases hpart with
      | byte _ | last _ => cases hf
      | unknown _ _ | noDigits _ _ => exact List.mem_singleton.1 hf ▸ rfl
    · exact ih f hf

theorem Literal.kind {quote : UInt8} {escapes : Bool} {body after bytes : List UInt8}
    {faults : List Finding} (h : Literal quote escapes body after bytes faults) :
    ∀ f ∈ faults, f.problem.kind = .invalidCharacter := by
  cases escapes with
  | true => exact (h.decoded rfl).kind
  | false =>
    rw [(h.verbatim rfl).2]
    exact nofun

/-- Only what is not listed has no name. -/
theorem named?_of_not_mem {b : UInt8} (h : b ∉ names.map Prod.fst) : Piece.named? b = none := by
  unfold Piece.named?
  split
  case h_13 => rfl
  all_goals exact absurd (by decide) h

/-- A part is read as one piece. -/
theorem read_part {quote : UInt8} {after part held : List UInt8} {problem : Option Problem}
    (h : Part quote after part held problem) :
    ∃ first rest p, part = first :: rest ∧ Piece.read first (rest ++ after) = p ∧
      p.width = part.length ∧ p.content = held ∧ p.problem? = problem := by
  cases h with
  | byte hb =>
    obtain ⟨first, rest, p, hpart, hread, hwidth, hstands⟩ := standsFor_spelling hb
    exact ⟨first, rest, p, hpart, hread, hwidth, hstands.1, hstands.2⟩
  | @unknown b hname hmark =>
    have hread : Piece.read Byte.backslash (b :: after) = .unknown b := by
      simp [Piece.read, named?_of_not_mem hname, mt toUpper_eq_upperX_iff.1 hmark]
    exact ⟨_, [b], _, rfl, hread, rfl, rfl, rfl⟩
  | @noDigits x hmark hdigit =>
    have hhex : Piece.hex after = .noDigits := by
      cases after with
      | nil => rfl
      | cons next more =>
        have hnext : digitValue? next = none := digitValue?_eq_none_iff.2 (hdigit next rfl)
        cases more <;> simp [Piece.hex, hnext]
    have hread : Piece.read Byte.backslash (x :: after) = .noDigits := by
      simp [Piece.read, named?_mark hmark, toUpper_eq_upperX_iff.2 hmark, hhex]
    exact ⟨_, [x], _, rfl, hread, rfl, rfl, rfl⟩
  | last hend =>
    subst hend
    exact ⟨_, [], _, rfl, rfl, rfl, rfl, rfl⟩

/-- A text in parts is read part by part. -/
theorem pieces_decodes {quote : UInt8} {offset : Nat} {text bytes : List UInt8}
    {faults : List Finding} (h : Decodes quote offset text bytes faults) :
    (Piece.ofBytes text).flatMap Piece.content = bytes ∧
      findingsFrom offset (Piece.ofBytes text) = faults := by
  induction h with
  | nil => simp [Piece.ofBytes, findingsFrom]
  | @cons offset part held text bytes problem faults hpart _ ih =>
    obtain ⟨first, rest, p, rfl, hread, hwidth, hcontent, hproblem⟩ := read_part hpart
    have hpieces : Piece.ofBytes (first :: rest ++ text) = p :: Piece.ofBytes text := by
      have hdrop : (rest ++ text).drop (p.width - 1) = text := by
        rw [hwidth, List.length_cons, Nat.add_sub_cancel, List.drop_left]
      rw [List.cons_append, Piece.ofBytes, hread, hdrop]
    rw [hpieces, List.flatMap_cons, findingsFrom, hcontent, hproblem, hwidth, ih.1, ih.2]
    exact ⟨rfl, rfl⟩

/-! ### Every literal falls into parts -/

/-- All that is wrong with a literal: with its escapes, with its length and with its end. -/
def wrongs (faults : List Finding) (length : Nat) (closed : Bool) : List Finding :=
  faults ++ Finding.atStartIf (ShortString.maxLength < length) .stringTooLong ++
    Finding.atStartIf (!closed) .unterminatedString

/-- **A literal is read as it is**: up to its end, with what it stands for and what is wrong with it. -/
theorem read_literal {quote : UInt8} {escapes : Bool} {body after bytes : List UInt8}
    {faults : List Finding} (h : Literal quote escapes body after bytes faults) :
    let q := read quote escapes (body ++ after)
    q.content = bytes ∧ q.closed = decide (after.head? = some quote) ∧
      q.size = body.length + (if after.head? = some quote then 1 else 0) ∧
      q.findings = wrongs faults bytes.length q.closed := by
  intro q
  have hq : q = ⟨if escapes then Piece.ofBytes body else body.map .byte,
      body.length + (if after.head? = some quote then 1 else 0),
      decide (after.head? = some quote)⟩ := by
    simp only [q, read, body_extent h.extent, List.drop_left]
  have hpieces : q.pieces.flatMap Piece.content = bytes ∧ findingsFrom 1 q.pieces = faults := by
    rw [hq]
    cases escapes with
    | true => exact pieces_decodes (h.decoded rfl)
    | false =>
      obtain ⟨rfl, rfl⟩ := h.verbatim rfl
      refine ⟨?_, Lexeme.findingsFrom_unescaped 1 bytes⟩
      simp only [Bool.false_eq_true, if_false, List.flatMap_map]
      exact List.flatMap_singleton' bytes
  have hcontent : q.content = bytes := hpieces.1
  refine ⟨hcontent, by rw [hq], by rw [hq], ?_⟩
  rw [findings, hpieces.2, hcontent]
  rfl

end Quoted

namespace Lexeme

/-- What a literal is by what it holds, and what is wrong with it as that: a string, or the one
character that single quotes are for. -/
inductive Constant (fs : Features) (m : Charmap) (quote : UInt8) (closed : Bool)
    (held : ShortString) : Token → Attr → List Problem → Prop where
  | string : quote = Byte.doubleQuote → Constant fs m quote closed held .strConst (.str held) []
  | loose : quote = Byte.singleQuote → 2 ≤ held.length → fs.looseStringTerm = true →
      Constant fs m quote closed held .strConst (.str held) []
  | char {b : UInt8} : quote = Byte.singleQuote → held.bytes = [b] →
      Constant fs m quote closed held .charConst (.int (m.translate b).toNat) []
  | long {b : UInt8} {more : List UInt8} : quote = Byte.singleQuote → held.bytes = b :: more →
      2 ≤ held.length → fs.looseStringTerm = false →
      Constant fs m quote closed held .charConst (.int (m.translate b).toNat) [.longCharConst]
  /-- Where there is no character, zero stands for one. If there is no second quote either, that is
  wrong enough. -/
  | empty : quote = Byte.singleQuote → held.bytes = [] →
      Constant fs m quote closed held .charConst (.int (m.translate 0).toNat)
        (if closed then [.emptyCharConst] else [])

section Constants
variable {fs : Features} {m : Charmap} {closed : Bool} {held : ShortString} {t : Token}
  {attr : Attr} {own : List Problem}

/-- In double quotes there is a string, and nothing is wrong with it as that. -/
theorem Constant.eq_string (h : Constant fs m Byte.doubleQuote closed held t attr own) :
    t = .strConst ∧ attr = .str held ∧ own = [] := by
  cases h with
  | string => exact ⟨rfl, rfl, rfl⟩
  | loose hquote | char hquote | long hquote | empty hquote => exact absurd hquote (by decide)

end Constants

/-- **A literal is a token**, whatever is wrong with it, and takes the text up to its end. -/
theorem read_constant (c : Config) (m : Charmap) {quote : UInt8}
    (hquote : quote = Byte.doubleQuote ∨ quote = Byte.singleQuote) {body after bytes : List UInt8}
    {faults : List Finding}
    (h : Quoted.Literal quote c.features.stringEscapes body after bytes faults) :
    let closed := decide (after.head? = some quote)
    ∃ t attr own, Constant c.features m quote closed (.truncate bytes) t attr own ∧
      read c m quote (body ++ after) =
        { meaning := .token t attr
          size := 1 + (body.length + closed.toNat)
          findings := Quoted.wrongs faults bytes.length closed ++ own.map (Finding.mk 0) } := by
  intro closed
  obtain ⟨hcontent, hclosed, hsize, hfindings⟩ := Quoted.read_literal h
  have hsize : (Quoted.read quote c.features.stringEscapes (body ++ after)).size =
      body.length + closed.toNat := by
    rw [hsize]
    cases hend : decide (after.head? = some quote) <;> simp_all [closed]
  rw [hclosed] at hfindings
  rcases hquote with rfl | rfl
  · have hread : read c m Byte.doubleQuote (body ++ after) = strLiteral c.features (body ++ after) :=
      if_neg (ne_mark c (by decide))
    refine ⟨_, _, [], .string rfl, ?_⟩
    rw [hread, strLiteral]
    simp only [hcontent, hsize, hfindings, List.map_nil, List.append_nil, closed]
  · have hread : read c m Byte.singleQuote (body ++ after) =
        charLiteral c.features m (body ++ after) :=
      if_neg (ne_mark c (by decide))
    rw [hread, charLiteral]
    simp only [hcontent, hclosed, hsize, hfindings]
    rcases bytes with _ | ⟨b, _ | ⟨b', more⟩⟩
    · have hempty (b : Bool) : Finding.atStartIf b .emptyCharConst =
          (if b then [Problem.emptyCharConst] else []).map (Finding.mk 0) := by
        cases b <;> rfl
      exact ⟨_, _, _, .empty rfl rfl, by simp only [hempty, closed]⟩
    · exact ⟨_, _, _, .char rfl rfl, by simp [closed]⟩
    · have hlength : 2 ≤ (ShortString.truncate (b :: b' :: more)).length := by
        simp [ShortString.truncate, ShortString.length, ShortString.maxLength]
      cases hloose : c.features.looseStringTerm with
      | true => exact ⟨_, _, _, .loose rfl hlength hloose, by simp [closed]⟩
      | false => exact ⟨_, _, _, .long rfl rfl hlength hloose, by simp [closed]⟩

end Lexeme
end AsmScan
