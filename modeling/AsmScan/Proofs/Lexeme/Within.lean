import AsmScan.Proofs.Lexeme.Alone
import AsmScan.Proofs.Lexeme.Apart
import AsmScan.Proofs.Lexeme.Case

/-! What is wrong with a lexeme stands within it.

A problem is found at the first byte of its lexeme, or, in quotes, behind a backslash
that stands within them (`within_read`). No line ends before it, so that a distance in
bytes is a distance in columns (`lineFeed_notMem_take`). -/
namespace AsmScan

namespace Quoted

/-- What is wrong with a piece takes two bytes. -/
theorem exists_cons_of_problem? {first : UInt8} {rest : List UInt8} {p : Problem}
    (h : (Piece.read first rest).problem? = some p) : rest ≠ [] := by
  rintro rfl
  unfold Piece.read at h
  split at h <;> contradiction

/-- A problem of what stands between quotes is behind a byte of it. -/
theorem offset_findingsFrom_lt {offset : Nat} {bytes : List UInt8} {f : Finding}
    (hf : f ∈ findingsFrom offset (Piece.ofBytes bytes)) : f.offset < offset + bytes.length := by
  induction hlength : bytes.length using Nat.strongRecOn generalizing bytes offset with
  | ind length ih =>
    cases bytes with
    | nil =>
      rw [Piece.ofBytes] at hf
      contradiction
    | cons first rest =>
      let piece := Piece.read first rest
      rw [List.length_cons] at hlength
      rw [Piece.ofBytes] at hf
      rcases List.mem_append.1 hf with hf | hf
      · obtain ⟨p, hp, rfl⟩ := Option.map_eq_some_iff.1 (Option.mem_toList.1 hf)
        have := List.length_pos_iff.2 (exists_cons_of_problem? hp)
        show offset + 1 < offset + length
        omega
      · have hf : f ∈ findingsFrom (offset + piece.width)
            (Piece.ofBytes (rest.drop (piece.width - 1))) := hf
        have hlt := ih _ (by rw [List.length_drop]; omega) hf rfl
        rcases Nat.lt_or_ge rest.length (piece.width - 1) with hover | hwithin
        · rw [List.drop_of_length_le (Nat.le_of_lt hover), Piece.ofBytes] at hf
          contradiction
        · rw [List.length_drop] at hlt
          omega

/-- What is wrong with a literal stands before its end. -/
theorem offset_findings_lt {quote : UInt8} {escapes : Bool} {rest : List UInt8} {f : Finding}
    (hf : f ∈ (read quote escapes rest).findings) :
    f.offset < 1 + (read quote escapes rest).size := by
  have hstart (h : f.offset = 0) : f.offset < 1 + (read quote escapes rest).size := by omega
  rcases List.mem_append.1 hf with hf | hf
  · rcases List.mem_append.1 hf with hf | hf
    · have hsize : (body quote escapes false rest).length ≤ (read quote escapes rest).size :=
        Nat.le_add_right ..
      cases escapes with
      | true => exact Nat.lt_of_lt_of_le (offset_findingsFrom_lt hf) (Nat.add_le_add_left hsize 1)
      | false =>
        have hf : f ∈ findingsFrom 1 ((body quote false false rest).map .byte) := hf
        rw [Lexeme.findingsFrom_unescaped] at hf
        contradiction
    · exact hstart (Lexeme.offset_atStartIf hf)
  · exact hstart (Lexeme.offset_atStartIf hf)

end Quoted

namespace Lexeme

/-- What is wrong with a lexeme stands within it. -/
def Within (l : Lexeme) : Prop := ∀ f ∈ l.findings, f.offset < l.size

theorem FaultyAtStart.within {l : Lexeme} (h : l.FaultyAtStart) : l.Within := by
  intro f hf
  rw [h f hf]
  exact l.size_pos

theorem within_charLiteral (fs : Features) (m : Charmap) (rest : List UInt8) :
    (charLiteral fs m rest).Within := by
  have hquoted {findings : List Finding} (h : ∀ f ∈ findings, f.offset = 0) {meaning : Meaning} :
      Within
        { meaning
          size := 1 + (Quoted.read Byte.singleQuote fs.stringEscapes rest).size
          findings := (Quoted.read Byte.singleQuote fs.stringEscapes rest).findings ++ findings } := by
    intro f hf
    rcases List.mem_append.1 hf with hf | hf
    · exact Quoted.offset_findings_lt hf
    · rw [h f hf]
      exact Nat.lt_of_lt_of_le Nat.zero_lt_one (Nat.le_add_right ..)
  unfold charLiteral
  dsimp only
  split
  · exact hquoted fun f => offset_atStartIf
  · exact hquoted fun f hf => absurd hf List.not_mem_nil
  · split
    · exact fun f => Quoted.offset_findings_lt
    · exact hquoted fun f hf => by rw [List.mem_singleton.1 hf]

/-- **What is wrong with a lexeme stands within it.** -/
theorem within_read (c : Config) (m : Charmap) (b : UInt8) (rest : List UInt8) :
    (read c m b rest).Within := by
  by_cases hb : b ≠ Byte.doubleQuote ∧ b ≠ Byte.singleQuote
  · exact (faultyAtStart_unquoted hb).within
  · rw [not_and_or, not_not, not_not] at hb
    rcases hb with rfl | rfl
    · rw [read_of_rule (.strLiteral rfl)]
      exact fun f hf => Quoted.offset_findings_lt hf
    · rw [read_of_rule (.charLiteral rfl)]
      exact within_charLiteral c.features m rest

/-- **No line ends before it.** -/
theorem lineFeed_notMem_take (c : Config) (m : Charmap) (b : UInt8) (rest : List UInt8) {f : Finding}
    (hf : f ∈ (read c m b rest).findings) : Byte.lineFeed ∉ (b :: rest).take f.offset := by
  by_cases hb : b ≠ Byte.doubleQuote ∧ b ≠ Byte.singleQuote
  · rw [faultyAtStart_unquoted hb f hf, List.take_zero]
    exact List.not_mem_nil
  · intro hmem
    have hle := Nat.le_of_lt (within_read c m b rest f hf)
    rcases eq_or_joins_of_mem c m (List.take_subset_take_left _ hle hmem) with rfl | ⟨-, hjoins⟩
    · exact hb (by decide)
    · have hhead : ((b :: rest).take (read c m b rest).size).head? = some b := by
        rw [List.head?_take, if_neg (Nat.ne_of_gt (size_pos _))]
        rfl
      obtain rfl : Byte.backslash = b := by
        rcases hjoins with h | h <;> rw [h] at hhead <;> exact Option.some.inj hhead
      exact hb (by decide)

end Lexeme
end AsmScan
