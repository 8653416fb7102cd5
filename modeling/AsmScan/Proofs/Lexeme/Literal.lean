import AsmScan.Lexeme.Quoted
import AsmScan.Proofs.Lexeme.Alphabet
import Mathlib.Data.List.Forall2

/-! How literals are written.

Between quotes a byte can be written in more than one way: as itself, by its name, or by
its value in hexadecimal. `Spelling` lists the ways, without a word about how they are
read, and `Spells` puts bytes one behind the other. Whichever ways are taken, the bytes
are read back, and the literal ends at its closing quote (`read_spells`). -/
namespace AsmScan.Quoted

/-- The bytes that have a name, each behind the letter or sign that names it. -/
def names : List (UInt8 × UInt8) :=
  [(Byte.zero, 0x00), (Byte.lowerA, 0x07), (Byte.lowerB, 0x08), (Byte.lowerT, 0x09),
   (Byte.lowerN, 0x0A), (Byte.lowerV, 0x0B), (Byte.lowerF, 0x0C), (Byte.lowerR, 0x0D),
   (Byte.lowerE, 0x1B), (Byte.doubleQuote, Byte.doubleQuote), (Byte.singleQuote, Byte.singleQuote),
   (Byte.backslash, Byte.backslash)]

/-- The ways to write a byte between quotes, before what else is written there. -/
inductive Spelling (quote b : UInt8) (after : List UInt8) : List UInt8 → Prop where
  | self : b ≠ quote → b ≠ Byte.backslash → b ≠ Byte.carriageReturn → b ≠ Byte.lineFeed →
      Spelling quote b after [b]
  | name {letter : UInt8} : (letter, b) ∈ names → Spelling quote b after [Byte.backslash, letter]
  | pair {x high low : UInt8} : x = Byte.lowerX ∨ x = Byte.upperX → (high, b / 16) ∈ hexDigits →
      (low, b % 16) ∈ hexDigits → Spelling quote b after [Byte.backslash, x, high, low]
  /-- One digit will do, if the next byte written is not taken for another. -/
  | digit {x low : UInt8} : x = Byte.lowerX ∨ x = Byte.upperX → (low, b) ∈ hexDigits →
      (∀ next ∈ after.head?, next ∉ hexDigits.map Prod.fst) →
      Spelling quote b after [Byte.backslash, x, low]

/-- Bytes, and a text that says them between quotes. -/
inductive Spells (quote : UInt8) : List UInt8 → List UInt8 → Prop where
  | nil : Spells quote [] []
  | cons {b : UInt8} {bytes piece text : List UInt8} :
      Spelling quote b text piece → Spells quote bytes text →
      Spells quote (b :: bytes) (piece ++ text)

/-! ### Where the literal ends -/

/-- A hexadecimal digit ends no literal and begins no escape. -/
theorem ne_of_mem_hexDigits {b value : UInt8} (h : (b, value) ∈ hexDigits) :
    b ≠ Byte.lineFeed ∧ b ≠ Byte.carriageReturn ∧ b ≠ Byte.doubleQuote ∧ b ≠ Byte.singleQuote ∧
      b ≠ Byte.backslash := by
  have hvalue : digitValue? b = some value := digitValue?_eq_some_iff.2 h
  refine ⟨?_, ?_, ?_, ?_, ?_⟩ <;> rintro rfl <;> cases hvalue

section Bodies
variable {quote : UInt8}

/-- A byte that does not end the literal, and begins no escape. -/
theorem body_plain {b : UInt8} (rest : List UInt8)
    (h : b ≠ Byte.lineFeed ∧ b ≠ Byte.carriageReturn ∧ b ≠ quote ∧ b ≠ Byte.backslash) :
    body quote true false (b :: rest) = b :: body quote true false rest := by
  obtain ⟨hfeed, hreturn, hquote, hslash⟩ := h
  have hhides : (true && b == Byte.backslash && !false) = false := by simp [hslash]
  rw [body, if_neg (by simp [endsLine, hfeed, hreturn, hquote]), hhides]

/-- A backslash hides the byte behind it. -/
theorem body_escape {b : UInt8} (rest : List UInt8) (hquote : quote ≠ Byte.backslash)
    (h : b ≠ Byte.lineFeed ∧ b ≠ Byte.carriageReturn) :
    body quote true false (Byte.backslash :: b :: rest) =
      Byte.backslash :: b :: body quote true false rest := by
  obtain ⟨hfeed, hreturn⟩ := h
  have hends : (endsLine Byte.backslash || Byte.backslash == quote && !false) = false := by
    simp [show endsLine Byte.backslash = false from rfl, hquote.symm]
  rw [body, hends, if_neg Bool.false_ne_true, body, if_neg (by simp [endsLine, hfeed, hreturn])]
  simp

theorem body_close (tail : List UInt8) : body quote true false (quote :: tail) = [] := by
  simp [body]

variable (hquote : quote = Byte.doubleQuote ∨ quote = Byte.singleQuote)
include hquote

/-- No way to write a byte ends the literal, or hides what follows. -/
theorem body_spelling {b : UInt8} {after piece : List UInt8} (h : Spelling quote b after piece)
    (tail : List UInt8) :
    body quote true false (piece ++ tail) = piece ++ body quote true false tail := by
  have hslash : quote ≠ Byte.backslash := by rcases hquote with rfl | rfl <;> decide
  have hdigit {d value : UInt8} (hd : (d, value) ∈ hexDigits) :
      d ≠ Byte.lineFeed ∧ d ≠ Byte.carriageReturn ∧ d ≠ quote ∧ d ≠ Byte.backslash := by
    obtain ⟨hfeed, hreturn, hdouble, hsingle, hne⟩ := ne_of_mem_hexDigits hd
    rcases hquote with rfl | rfl
    · exact ⟨hfeed, hreturn, hdouble, hne⟩
    · exact ⟨hfeed, hreturn, hsingle, hne⟩
  have hmark {x : UInt8} (hx : x = Byte.lowerX ∨ x = Byte.upperX) :
      x ≠ Byte.lineFeed ∧ x ≠ Byte.carriageReturn := by
    rcases hx with rfl | rfl <;> decide
  have hnames : names.all (fun e => e.1 ≠ Byte.lineFeed ∧ e.1 ≠ Byte.carriageReturn) = true := rfl
  cases h with
  | self hself hne hreturn hfeed => exact body_plain tail ⟨hfeed, hreturn, hself, hne⟩
  | name hname => exact body_escape tail hslash (by simpa using List.all_eq_true.1 hnames _ hname)
  | pair hx hhigh hlow =>
    simp only [List.cons_append, List.nil_append]
    rw [body_escape _ hslash (hmark hx), body_plain _ (hdigit hhigh), body_plain _ (hdigit hlow)]
  | digit hx hlow =>
    simp only [List.cons_append, List.nil_append]
    rw [body_escape _ hslash (hmark hx), body_plain _ (hdigit hlow)]

/-- The closing quote ends the literal, and nothing before it does. -/
theorem body_spells {bytes text : List UInt8} (h : Spells quote bytes text) (tail : List UInt8) :
    body quote true false (text ++ quote :: tail) = text := by
  induction h with
  | nil => exact body_close tail
  | cons hspelling _ ih => rw [List.append_assoc, body_spelling hquote hspelling, ih]

end Bodies

/-! ### What the literal stands for -/

/-- A piece that stands for one byte, without a problem. -/
def StandsFor (piece : Piece) (b : UInt8) : Prop := piece.content = [b] ∧ piece.problem? = none

/-- The letter of a hexadecimal escape, in either case. -/
theorem toUpper_eq_upperX_iff {x : UInt8} :
    Byte.toUpper x = Byte.upperX ↔ x = Byte.lowerX ∨ x = Byte.upperX := by
  refine ⟨fun h => ?_, ?_⟩
  · unfold Byte.toUpper Byte.isLower at h
    grind
  · rintro (rfl | rfl) <;> rfl

theorem named?_mark {x : UInt8} (h : x = Byte.lowerX ∨ x = Byte.upperX) :
    Piece.named? x = none := by
  rcases h with rfl | rfl <;> rfl

/-- Each way to write a byte is one piece, which stands for it. -/
theorem standsFor_spelling {quote b : UInt8} {after piece : List UInt8}
    (h : Spelling quote b after piece) :
    ∃ first rest p, piece = first :: rest ∧ Piece.read first (rest ++ after) = p ∧
      p.width = piece.length ∧ StandsFor p b := by
  have hhex {x : UInt8} (hx : x = Byte.lowerX ∨ x = Byte.upperX) (digits : List UInt8) :
      Piece.read Byte.backslash (x :: digits) = Piece.hex digits := by
    simp [Piece.read, named?_mark hx, toUpper_eq_upperX_iff.2 hx]
  cases h with
  | self _ hne => exact ⟨b, [], .byte b, rfl, if_neg hne, rfl, rfl, rfl⟩
  | @name letter hname =>
    have hnames : names.all (fun e => Piece.named? e.1 = some e.2) = true := rfl
    have hnamed : Piece.named? letter = some b := by simpa using List.all_eq_true.1 hnames _ hname
    have hread : Piece.read Byte.backslash (letter :: after) = .escape b 2 := by
      simp [Piece.read, hnamed]
    exact ⟨_, _, _, rfl, hread, rfl, rfl, rfl⟩
  | @pair x high low hx hhigh hlow =>
    have hvalue : 16 * (b / 16) + b % 16 = b := by grind
    have hread : Piece.read Byte.backslash (x :: high :: low :: after) = .escape b 4 := by
      rw [hhex hx]
      simp [Piece.hex, digitValue?_eq_some_iff.2 hhigh, digitValue?_eq_some_iff.2 hlow, hvalue]
    exact ⟨_, _, _, rfl, hread, rfl, rfl, rfl⟩
  | @digit x low hx hlow hafter =>
    have hread : Piece.read Byte.backslash (x :: low :: after) = .escape b 3 := by
      have hdigit : digitValue? low = some b := digitValue?_eq_some_iff.2 hlow
      rw [hhex hx]
      cases after with
      | nil => simp [Piece.hex, hdigit]
      | cons next more =>
        simp [Piece.hex, hdigit, digitValue?_eq_none_iff.2 (hafter next rfl)]
    exact ⟨_, _, _, rfl, hread, rfl, rfl, rfl⟩

/-- A text between quotes has a piece for each of the bytes that it says. -/
theorem standsFor_spells {quote : UInt8} {bytes text : List UInt8} (h : Spells quote bytes text) :
    List.Forall₂ StandsFor (Piece.ofBytes text) bytes := by
  induction h with
  | nil =>
    rw [Piece.ofBytes]
    exact .nil
  | @cons b bytes piece text hspelling _ ih =>
    obtain ⟨first, rest, p, rfl, hread, hwidth, hpiece⟩ := standsFor_spelling hspelling
    have hdrop : (rest ++ text).drop (p.width - 1) = text := by
      rw [hwidth, List.length_cons, Nat.add_sub_cancel, List.drop_left]
    rw [List.cons_append, Piece.ofBytes, hread, hdrop]
    exact .cons hpiece ih

theorem content_standsFor {pieces : List Piece} {bytes : List UInt8}
    (h : List.Forall₂ StandsFor pieces bytes) : pieces.flatMap Piece.content = bytes := by
  induction h with
  | nil => rfl
  | cons hpiece _ ih => rw [List.flatMap_cons, hpiece.1, ih, List.singleton_append]

theorem findingsFrom_standsFor {pieces : List Piece} {bytes : List UInt8}
    (h : List.Forall₂ StandsFor pieces bytes) (offset : Nat) : findingsFrom offset pieces = [] := by
  induction h generalizing offset with
  | nil => rfl
  | cons hpiece _ ih =>
    rw [findingsFrom, hpiece.2, ih]
    rfl

/-- **What is written between quotes is read back**, up to the closing quote and no further, and if it
is short enough there is nothing wrong with it. -/
theorem read_spells {quote : UInt8} (hquote : quote = Byte.doubleQuote ∨ quote = Byte.singleQuote)
    {bytes text : List UInt8} (h : Spells quote bytes text) (tail : List UInt8) :
    let q := read quote true (text ++ quote :: tail)
    q.content = bytes ∧ q.size = text.length + 1 ∧
      (bytes.length ≤ ShortString.maxLength → q.findings = []) := by
  intro q
  have hq : q = ⟨Piece.ofBytes text, text.length + 1, true⟩ := by
    simp only [q, read, body_spells hquote h, List.drop_left, List.head?_cons]
    simp
  have hcontent : q.content = bytes := by
    rw [hq]
    exact content_standsFor (standsFor_spells h)
  refine ⟨hcontent, by rw [hq], fun hshort => ?_⟩
  unfold findings
  rw [hcontent, hq]
  dsimp only
  rw [findingsFrom_standsFor (standsFor_spells h)]
  simp [Finding.atStartIf, Nat.not_lt.2 hshort]

end AsmScan.Quoted
