import AsmScan.Proofs.Lexeme.Apart
import AsmScan.Proofs.Lexeme.Literal
import Mathlib.Data.List.TakeWhile

/-! Texts that are one token.

`Lexes` says that a text is read whole as one token, without a problem, wherever a
blank or nothing follows it. So are read: references to unnamed labels (`lexes_unnamed`)
and literals in which each byte is written as an escape (`lexes_string`, `lexes_char`). -/
namespace AsmScan

/-- A byte that goes on every name, whatever the features. -/
def Byte.isWord (b : UInt8) : Bool := isNameStart b || isDigit b

/-- A text in which each byte is written as an escape of two hexadecimal digits. -/
inductive Escaped : List UInt8 → List UInt8 → Prop where
  | nil : Escaped [] []
  | cons {b high low : UInt8} {bytes text : List UInt8} (hhigh : (high, b / 16) ∈ hexDigits)
      (hlow : (low, b % 16) ∈ hexDigits) (h : Escaped bytes text) :
      Escaped (b :: bytes) (Byte.backslash :: Byte.lowerX :: high :: low :: text)

namespace Lexeme

/-- A text that is read as one token, whole and without a problem, wherever a blank or nothing
follows it. -/
def Lexes (c : Config) (m : Charmap) (text : List UInt8) (t : Token) (attr : Attr) : Prop :=
  ∃ first rest, text = first :: rest ∧ ∀ tail, Apart tail →
    let l := read c m first (rest ++ tail)
    l.meaning = .token t attr ∧ l.size = text.length ∧ l.findings = []

/-- A text that stands alone as one token is that before a gap too, if its first byte lets it. -/
theorem lexes_of_read {c : Config} {m : Charmap} {first : UInt8} {rest : List UInt8} {t : Token}
    {attr : Attr} (hfirst : first ∉ runners)
    (h : read c m first rest = {meaning := .token t attr, size := 1 + rest.length}) :
    Lexes c m (first :: rest) t attr := by
  refine ⟨first, rest, rfl, fun tail htail => ?_⟩
  rw [read_append_stopped c m hfirst rest htail.stopped, h]
  exact ⟨rfl, Nat.add_comm .., rfl⟩

section Rules
variable (c : Config) (m : Charmap) (rest : List UInt8)

theorem read_mark : read c m c.localChar.byte rest = localLabel c rest := if_pos rfl

theorem read_word {b : UInt8} (h : Byte.isNameStart b = true) : read c m b rest = word c b rest :=
  congrFun (read_of_rule (.word h)) rest

theorem read_unmarked {b : UInt8} (h : Byte.isDigit b = true) :
    read c m b rest = unmarked c.features b rest :=
  congrFun (read_of_rule (.unmarked h)) rest

end Rules

/-- A byte of names is none that goes past blanks. -/
theorem not_mem_runners {b : UInt8} (h : Byte.isWord b = true) : b ∉ runners := by
  intro hmem
  simp only [runners, List.mem_cons, List.not_mem_nil, or_false] at hmem
  rcases hmem with rfl | rfl | rfl | rfl <;> contradiction

/-! ### Unnamed labels -/

theorem lexes_unnamed {c : Config} {m : Charmap} {count : Int} (h : count ≠ 0) :
    Lexes c m
      (Byte.colon :: List.replicate count.natAbs (if 0 < count then Byte.plus else Byte.minus))
      .unnamedLabel (.int count) := by
  have hread (rest) : read c m Byte.colon rest = colon rest := if_neg (ne_mark c (by decide))
  apply lexes_of_read (by decide)
  rw [hread]
  obtain ⟨n, hn⟩ : ∃ n, count.natAbs = n + 1 := ⟨count.natAbs - 1, by omega⟩
  rw [hn, List.replicate_succ]
  by_cases hpos : 0 < count
  · have hcount : (1 + n : Int) = count := by omega
    rw [if_pos hpos, colon_plus]
    simp [hcount]
    omega
  · have hcount : -(1 + n : Int) = count := by omega
    rw [if_neg hpos, colon_minus]
    simp [hcount]
    omega

/-! ### Literals in escapes -/

/-- Escapes are one way to write bytes. -/
theorem spells_escaped (quote : UInt8) {bytes text : List UInt8} (h : Escaped bytes text) :
    Quoted.Spells quote bytes text := by
  induction h with
  | nil => exact .nil
  | cons hhigh hlow _ ih => exact .cons (.pair (.inl rfl) hhigh hlow) ih

section Literals
variable {c : Config} (hc : c.features.stringEscapes = true) {m : Charmap}
include hc

theorem lexes_string (s : ShortString) {body : List UInt8} (h : Escaped s.bytes body) :
    Lexes c m (Byte.doubleQuote :: (body ++ [Byte.doubleQuote])) .strConst (.str s) := by
  refine ⟨_, _, rfl, fun tail _ => ?_⟩
  have hread (rest) : read c m Byte.doubleQuote rest = strLiteral c.features rest :=
    if_neg (ne_mark c (by decide))
  obtain ⟨hcontent, hsize, hfindings⟩ :=
    Quoted.read_spells (.inl rfl) (spells_escaped Byte.doubleQuote h) tail
  rw [hread, List.append_assoc, List.singleton_append]
  unfold strLiteral
  simp only [hc, hcontent, hsize, hfindings s.length_le,
    ShortString.truncate_of_length_le s.length_le]
  simp [Nat.add_comm]

theorem lexes_char (b : UInt8) {body : List UInt8} (h : Escaped [b] body) :
    Lexes c m (Byte.singleQuote :: (body ++ [Byte.singleQuote])) .charConst
      (.int (m.translate b).toNat) := by
  refine ⟨_, _, rfl, fun tail _ => ?_⟩
  have hread (rest) : read c m Byte.singleQuote rest = charLiteral c.features m rest :=
    if_neg (ne_mark c (by decide))
  have hlength : [b].length ≤ ShortString.maxLength := by
    simp [ShortString.maxLength]
  obtain ⟨hcontent, hsize, hfindings⟩ :=
    Quoted.read_spells (.inr rfl) (spells_escaped Byte.singleQuote h) tail
  rw [hread, List.append_assoc, List.singleton_append]
  unfold charLiteral
  simp only [hc, hcontent, hsize, hfindings hlength]
  simp [Nat.add_comm]

end Literals

end Lexeme
end AsmScan
