import AsmScan.Proofs.Byte
import AsmScan.Proofs.Charmap
import AsmScan.Proofs.Lexeme.Rule

/-! Lexemes for another machine.

The processor and the character map say what a lexeme is to the machine and nothing else:
not how far it goes, nor what is wrong with it. So what is read for one processor, with
every byte standing for itself, can be recast for another processor and map afterwards,
name by name and constant by constant, and that is what is read for these
(`read_recast`). -/
namespace AsmScan

/-- What a name is to a processor. -/
def Cpu.nameToken (cpu : Cpu) (name : ShortString) : Token :=
  if cpu.isMnemonic name.toUpper.bytes then .mnemonic else .identifier

theorem Cpu.nameToken_eq_mnemonic_iff (cpu : Cpu) (name : ShortString) :
    cpu.nameToken name = .mnemonic ↔ cpu.isMnemonic name.toUpper.bytes = true := by
  unfold nameToken
  split <;> simp_all

section Recast
variable (cpu : Cpu) (m : Charmap)

/-- The token of a string for a processor: a name is looked up again. -/
def Token.recast (t : Token) (attr : Attr) : Token :=
  match attr with
  | .str name => if t = .identifier ∨ t = .mnemonic then cpu.nameToken name else t
  | _ => t

/-- The attribute of a token under a character map: the value of a character constant, a byte that
stands for itself, is translated. -/
def Attr.recast (t : Token) : Attr → Attr
  | .int value => .int (if t = .charConst then (m.translate (UInt8.ofNat value.toNat)).toNat else value)
  | attr => attr

/-- The meaning for a processor and under a character map. -/
def Meaning.recast : Meaning → Meaning
  | .token t attr => .token (t.recast cpu attr) (attr.recast m t)
  | meaning => meaning

namespace Lexeme

/-- The lexeme for a processor and under a character map. -/
def recast (l : Lexeme) : Lexeme := {l with meaning := l.meaning.recast cpu m}

/-! ### Words -/

/-- An instruction begins with a letter. -/
theorem head?_ne_of_isMnemonic {cpu : Cpu} {name : ShortString}
    (h : cpu.isMnemonic name.toUpper.bytes = true) {sign : UInt8}
    (hsign : Byte.isLetter sign = false) : name.bytes.head? ≠ some sign := by
  intro hhead
  obtain ⟨more, hbytes⟩ := List.head?_eq_some_iff.1 hhead
  rw [ShortString.bytes_toUpper, hbytes, List.map_cons] at h
  have hupper := cpu.isUpper_of_isMnemonic h
  rw [Byte.isUpper_toUpper, hsign] at hupper
  contradiction

/-- A name that begins with no letter is no instruction. -/
theorem nameToken_sign {b : UInt8} (hb : Byte.isLetter b = false) (more : List UInt8) :
    cpu.nameToken (.truncate (b :: more)) = .identifier :=
  if_neg fun h => head?_ne_of_isMnemonic h hb rfl

theorem recast_named_sign {b : UInt8} (hb : Byte.isLetter b = false) (more : List UInt8) :
    (named .identifier b more).recast cpu m = named .identifier b more := by
  have hname : Token.identifier.recast cpu (.str (.truncate (b :: more))) = .identifier := by
    simp only [Token.recast, true_or, if_true, nameToken_sign cpu hb more]
  simp only [recast, named, Meaning.recast, Attr.recast, hname]

theorem recast_letter? {b : UInt8} {rest : List UInt8} {l : Lexeme} (h : letter? b rest = some l) :
    l.recast cpu m = l := by
  unfold letter? at h
  split at h
  · cases h
    rfl
  · obtain ⟨t, -, rfl⟩ := Option.map_eq_some_iff.1 h
    rfl

variable (c : Config) (rest : List UInt8)

theorem localLabel_recast :
    localLabel {c with cpu} rest = (localLabel c rest).recast cpu m := by
  have hmark : Byte.isLetter c.localChar.byte = false := by cases c.localChar <;> rfl
  unfold localLabel
  split
  · exact (recast_named_sign cpu m hmark _).symm
  · rfl

theorem word_recast (b : UInt8) : word {c with cpu} b rest = (word c b rest).recast cpu m := by
  have hwhole (isMnemonic : Bool) (more : List UInt8) :
      (named (if isMnemonic then .mnemonic else .identifier) b more).recast cpu m =
        named (cpu.nameToken (.truncate (b :: more))) b more := by
    cases isMnemonic <;> rfl
  unfold word
  dsimp only
  split
  · cases hl : letter? b rest with
    | none => exact (hwhole _ _).symm
    | some l => exact (recast_letter? cpu m hl).symm
  · exact (hwhole _ _).symm

theorem dotted_recast : dotted {c with cpu} rest = (dotted c rest).recast cpu m := by
  unfold dotted
  split
  · dsimp only
    split
    · rfl
    · split
      · exact (recast_named_sign cpu m rfl _).symm
      · rfl
  · rfl

/-! ### Numbers, literals and operators -/

theorem recast_number (base : Base) (run : List UInt8) (size : Nat) (h : 0 < size) :
    (number base run size h).recast cpu m = number base run size h := by
  unfold number
  split <;> rfl

theorem recast_unmarked (fs : Features) (b : UInt8) :
    (unmarked fs b rest).recast cpu m = unmarked fs b rest := by
  unfold unmarked marked
  dsimp only
  split
  · exact recast_number ..
  · split
    · exact recast_number ..
    · split <;> exact recast_number ..

theorem recast_dollar (fs : Features) : (dollar fs rest).recast cpu m = dollar fs rest := by
  unfold dollar marked
  split
  · exact recast_number ..
  · split <;> rfl

theorem recast_percent (fs : Features) : (percent fs rest).recast cpu m = percent fs rest := by
  unfold percent marked
  split
  · exact recast_number ..
  · rfl

/-- Under the identity the value of a character constant is the byte itself. -/
theorem charLiteral_recast (fs : Features) :
    charLiteral fs m rest = (charLiteral fs .identity rest).recast cpu m := by
  have hchar (b : UInt8) : (Attr.int (Charmap.identity.translate b).toNat).recast m .charConst =
      .int (m.translate b).toNat := by
    simp [Attr.recast, Charmap.translate_identity]
  unfold charLiteral
  dsimp only
  split
  · simp only [recast, Meaning.recast, Token.recast, hchar]
  · simp only [recast, Meaning.recast, Token.recast, hchar]
  · split
    · rfl
    · simp only [recast, Meaning.recast, Token.recast, hchar]

theorem recast_colon : (colon rest).recast cpu m = colon rest := by
  unfold colon
  split <;> rfl

theorem recast_pair (single : Token) (seconds : List (UInt8 × Token)) :
    (pair single seconds rest).recast cpu m = pair single seconds rest := by
  unfold pair
  split <;> rfl

theorem recast_joint : (joint rest).recast cpu m = joint rest := by
  unfold joint
  split <;> rfl

/-! ### Every rule -/

/-- **What a lexeme is to the machine can be told afterwards.** -/
theorem read_recast (b : UInt8) :
    read {c with cpu} m b rest = (read c .identity b rest).recast cpu m := by
  have hrule := rule_read c .identity b
  generalize read c .identity b = rule at hrule ⊢
  cases hrule with
  | localLabel hb =>
    have hmark : b = ({c with cpu} : Config).localChar.byte := hb
    rw [read_of_rule (.localLabel hmark)]
    exact localLabel_recast cpu m c rest
  | blank hb => rw [read_of_rule (.blank hb)]; rfl
  | word hb => rw [read_of_rule (.word hb)]; exact word_recast cpu m c rest b
  | unmarked hb => rw [read_of_rule (.unmarked hb)]; exact (recast_unmarked cpu m rest _ b).symm
  | lineEnd hb => rw [read_of_rule (.lineEnd hb)]; rfl
  | comment hb => rw [read_of_rule (.comment hb)]; rfl
  | joint hb hjoins =>
    have hjoins : ({c with cpu} : Config).features.lineCont = true := hjoins
    rw [read_of_rule (.joint hb hjoins)]
    exact (recast_joint cpu m rest).symm
  | dotted hb => rw [read_of_rule (.dotted hb)]; exact dotted_recast cpu m c rest
  | dollar hb => rw [read_of_rule (.dollar hb)]; exact (recast_dollar cpu m rest _).symm
  | percent hb => rw [read_of_rule (.percent hb)]; exact (recast_percent cpu m rest _).symm
  | strLiteral hb => rw [read_of_rule (.strLiteral hb)]; rfl
  | charLiteral hb => rw [read_of_rule (.charLiteral hb)]; exact charLiteral_recast cpu m rest _
  | colon hb => rw [read_of_rule (.colon hb)]; exact (recast_colon cpu m rest).symm
  | pair hb => rw [read_of_rule (.pair hb)]; exact (recast_pair cpu m rest _ _).symm
  | sign hb => rw [read_of_rule (.sign hb)]; rfl
  | stray hb =>
    have hinvalid : Invalid {c with cpu} b :=
      ⟨hb.mark, hb.blank, hb.name, hb.digit, hb.beginner, hb.joint⟩
    rw [read_of_rule (.stray hinvalid)]
    rfl

end Lexeme
end Recast
end AsmScan
