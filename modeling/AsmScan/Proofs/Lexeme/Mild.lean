import AsmScan.Proofs.Lexeme.Rule

/-! What is wrong with a lexeme.

Whatever is found wrong with a lexeme is a problem that text can have (`Lexical`),
whichever rule it is read by: `lexical_read`. So it is an error and no more (`mild_read`),
as only a source that cannot be entered or read ends a scan. And a stray byte is the
first byte of its lexeme. -/
namespace AsmScan

/-- A problem of text that begins with a byte. The only byte that can be stray is that one. -/
def Problem.Lexical (b : UInt8) : Problem → Prop
  | .input _ | .addressSizeExpected => False
  | .strayByte stray => stray = b
  | _ => True

/-- Problems of text are errors and no worse. -/
theorem Problem.Lexical.severity {b : UInt8} {p : Problem} (h : p.Lexical b) :
    p.kind.severity = .error := by
  cases p <;> first | rfl | exact h.elim

/-- Findings in text that begins with a byte. -/
def Lexical (b : UInt8) (findings : List Finding) : Prop := ∀ f ∈ findings, f.problem.Lexical b

/-- Findings that are errors and no worse. -/
def Mild (findings : List Finding) : Prop := ∀ f ∈ findings, f.problem.kind.severity = .error

section Lexical
variable {b : UInt8}

theorem lexical_nil : Lexical b [] := fun _ h => absurd h List.not_mem_nil

theorem lexical_singleton {f : Finding} (h : f.problem.Lexical b) : Lexical b [f] := by
  intro g hg
  rwa [List.mem_singleton.1 hg]

theorem Lexical.append {a more : List Finding} (ha : Lexical b a) (hmore : Lexical b more) :
    Lexical b (a ++ more) := by
  intro f hf
  exact (List.mem_append.1 hf).elim (ha f) (hmore f)

theorem lexical_atStartIf {condition : Bool} {p : Problem} (h : p.Lexical b) :
    Lexical b (Finding.atStartIf condition p) := by
  unfold Finding.atStartIf
  split
  · exact lexical_singleton h
  · exact lexical_nil

end Lexical

namespace Quoted
variable (b : UInt8)

theorem lexical_problem? {piece : Piece} {p : Problem} (h : piece.problem? = some p) :
    p.Lexical b := by
  cases piece <;> cases h <;> trivial

theorem lexical_findingsFrom (offset : Nat) (pieces : List Piece) :
    Lexical b (findingsFrom offset pieces) := by
  induction pieces generalizing offset with
  | nil => exact lexical_nil
  | cons piece more ih =>
    refine Lexical.append (fun f hf => ?_) (ih _)
    obtain ⟨p, hp, rfl⟩ := Option.map_eq_some_iff.1 (Option.mem_toList.1 hf)
    exact lexical_problem? b hp

theorem lexical_findings (q : Quoted) : Lexical b q.findings :=
  .append (.append (lexical_findingsFrom b 1 q.pieces) (lexical_atStartIf trivial))
    (lexical_atStartIf trivial)

end Quoted

namespace Lexeme

section Rules
variable (c : Config) (m : Charmap) (fs : Features) (b : UInt8) (rest : List UInt8)

theorem lexical_letter? {l : Lexeme} (h : letter? b rest = some l) : Lexical b l.findings := by
  unfold letter? at h
  split at h
  · cases h
    exact lexical_nil
  · obtain ⟨t, -, rfl⟩ := Option.map_eq_some_iff.1 h
    exact lexical_nil

theorem lexical_word : Lexical b (word c b rest).findings := by
  unfold word
  dsimp only
  split
  · cases hl : letter? b rest with
    | none => exact lexical_atStartIf trivial
    | some l => exact lexical_letter? b rest hl
  · exact lexical_atStartIf trivial

theorem lexical_dotted : Lexical b (dotted c rest).findings := by
  unfold dotted
  split
  · dsimp only
    split
    · exact lexical_atStartIf trivial
    · split
      · exact lexical_atStartIf trivial
      · exact .append (lexical_atStartIf trivial) (lexical_singleton trivial)
  · exact lexical_nil

theorem lexical_localLabel : Lexical b (localLabel c rest).findings := by
  unfold localLabel
  split
  · exact lexical_atStartIf trivial
  · exact lexical_singleton trivial

theorem lexical_number (base : Base) (run : List UInt8) (size : Nat) (h : 0 < size) :
    Lexical b (number base run size h).findings := by
  unfold number
  split
  · exact lexical_nil
  · exact lexical_singleton trivial
  · exact lexical_singleton trivial

theorem lexical_unmarked : Lexical b (unmarked fs b rest).findings := by
  unfold unmarked
  dsimp only
  split
  · exact lexical_number _ _ _ _ _
  · split
    · exact lexical_number _ _ _ _ _
    · split <;> exact lexical_number _ _ _ _ _

theorem lexical_dollar : Lexical Byte.dollar (dollar fs rest).findings := by
  unfold dollar
  split
  · exact lexical_number _ _ _ _ _
  · split
    · exact lexical_nil
    · exact lexical_singleton rfl

theorem lexical_percent : Lexical b (percent fs rest).findings := by
  unfold percent
  split
  · exact lexical_number _ _ _ _ _
  · exact lexical_nil

theorem lexical_joint : Lexical Byte.backslash (joint rest).findings := by
  unfold joint
  split
  case h_4 => exact lexical_singleton rfl
  all_goals exact lexical_nil

theorem lexical_charLiteral : Lexical b (charLiteral fs m rest).findings := by
  have hquoted := (Quoted.read Byte.singleQuote fs.stringEscapes rest).lexical_findings b
  unfold charLiteral
  dsimp only
  split
  · exact .append hquoted (lexical_atStartIf trivial)
  · exact .append hquoted lexical_nil
  · split
    · exact hquoted
    · exact .append hquoted (lexical_singleton trivial)

theorem lexical_colon : Lexical b (colon rest).findings := by
  unfold colon
  split <;> exact lexical_nil

theorem lexical_pair (single : Token) (seconds : List (UInt8 × Token)) :
    Lexical b (pair single seconds rest).findings := by
  unfold pair
  split <;> exact lexical_nil

end Rules

/-- **What is wrong with a lexeme is a problem of its text**, and a byte that is stray is the lexeme's
first. -/
theorem lexical_read (c : Config) (m : Charmap) (b : UInt8) (rest : List UInt8) :
    Lexical b (read c m b rest).findings := by
  have h := rule_read c m b
  generalize read c m b = rule at h
  cases h with
  | localLabel => exact lexical_localLabel c b rest
  | word => exact lexical_word c b rest
  | unmarked => exact lexical_unmarked c.features b rest
  | joint hb => exact hb ▸ lexical_joint rest
  | dotted => exact lexical_dotted c b rest
  | dollar hb => exact hb ▸ lexical_dollar c.features rest
  | percent => exact lexical_percent c.features b rest
  | strLiteral => exact Quoted.lexical_findings b _
  | charLiteral => exact lexical_charLiteral m c.features b rest
  | colon => exact lexical_colon b rest
  | pair => exact lexical_pair b rest _ _
  | stray => exact lexical_singleton rfl
  | blank | lineEnd | comment | sign => exact lexical_nil

/-- **What is wrong with a lexeme is an error**, and never ends the scan. -/
theorem mild_read (c : Config) (m : Charmap) (b : UInt8) (rest : List UInt8) :
    Mild (read c m b rest).findings :=
  fun f hf => (lexical_read c m b rest f hf).severity

end Lexeme
end AsmScan
