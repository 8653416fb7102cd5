import AsmScan.Proofs.Lexeme.Case
import AsmScan.Proofs.Lexeme.Feature
import AsmScan.Proofs.Lexeme.Mild

/-! Stray backslashes.

A backslash that does not stand at the end of its line is stray, whether lines can be
joined or not. All the same it is read by a rule of its own where they can, and then it
is passed over instead of rejected (`read_set_lineCont`). Its message tells it from all
other problems (`isStrayBackslash_toMessage`). -/
namespace AsmScan

/-- No backslash stands at the end of a line. -/
def Unjoined (text : List UInt8) : Prop :=
  ¬ [Byte.backslash, Byte.lineFeed] <:+: text ∧ ¬ [Byte.backslash, Byte.carriageReturn] <:+: text

theorem Unjoined.of_suffix {text more : List UInt8} (h : Unjoined text) (hmore : more <:+ text) :
    Unjoined more :=
  ⟨fun hjoin => h.1 (hjoin.trans hmore.isInfix), fun hjoin => h.2 (hjoin.trans hmore.isInfix)⟩

/-! ### The message -/

/-- Whether the message is about a stray backslash. -/
def Message.isStrayBackslash (m : Message) : Bool :=
  m = (Problem.strayByte Byte.backslash).toMessage m.pos

namespace Problem

theorem ofUInt8_inj {a b : UInt8} (h : Char.ofUInt8 a = Char.ofUInt8 b) : a = b := by
  have hval : a.toUInt32 = b.toUInt32 := congrArg Char.val h
  exact UInt8.toUInt32_inj.1 hval

/-- No other byte is shown as a backslash is. -/
theorem showByte_eq_backslash {b : UInt8} (h : showByte b = showByte Byte.backslash) :
    b = Byte.backslash := by
  have hslash : showByte Byte.backslash = "'\\'" := rfl
  rw [hslash] at h
  unfold showByte at h
  split at h
  · have hquoted : "'" ++ String.ofList [Char.ofUInt8 b] ++ "'" = "'\\'" := h
    have hchar : Char.ofUInt8 b = '\\' := by simpa using congrArg String.toList hquoted
    exact ofUInt8_inj hchar
  · have hhex : "0x" ++ hexPair b = "'\\'" := h
    have hlist := congrArg String.toList hhex
    simp at hlist

/-- Invalid characters are told apart by what their messages begin with. -/
theorem eq_strayByte_of_text {p : Problem} {shown : String} (hkind : p.kind = .invalidCharacter)
    (htext : p.text = "invalid input character " ++ shown) :
    ∃ b, p = .strayByte b ∧ showByte b = shown := by
  cases p with
  | strayByte b => exact ⟨b, rfl, (String.append_right_inj _).1 htext⟩
  | unnamedLocal mark =>
    have htext : "'" ++ toString mark.char ++ "' must be followed by a label name" = _ := htext
    have hlist := congrArg String.toList htext
    simp at hlist
  | unknownEscape b =>
    have htext : "invalid escape sequence '\\" ++ latin1 [b] ++ "'" = _ := htext
    have hlist := congrArg String.toList htext
    simp at hlist
  | hexEscapeWithoutDigits =>
    have htext : "'\\x' escape requires hexadecimal digits" = _ := htext
    have hlist := congrArg String.toList htext
    simp at hlist
  | input e => cases e <;> contradiction
  | _ => contradiction

/-- No other problem has the message of a stray backslash. -/
theorem isStrayBackslash_toMessage (p : Problem) (pos : Position) :
    (p.toMessage pos).isStrayBackslash = true ↔ p = .strayByte Byte.backslash := by
  constructor
  · intro h
    have heq : p.toMessage pos = (strayByte Byte.backslash).toMessage pos := of_decide_eq_true h
    have hkind : p.kind = .invalidCharacter := congrArg Message.kind heq
    have htext : p.text = "invalid input character " ++ showByte Byte.backslash :=
      congrArg Message.text heq
    obtain ⟨b, rfl, hb⟩ := eq_strayByte_of_text hkind htext
    rw [showByte_eq_backslash hb]
  · rintro rfl
    exact decide_eq_true rfl

end Problem

namespace Lexeme

/-- The lexeme where lines can be joined: a stray backslash is passed over. -/
def setOff (l : Lexeme) : Lexeme :=
  if l = stray Byte.backslash then {l with meaning := .blank} else l

/-- A lexeme in which no stray backslash is found. -/
def Clear (l : Lexeme) : Prop := ∀ f ∈ l.findings, f.problem ≠ .strayByte Byte.backslash

theorem Clear.setOff {l : Lexeme} (h : l.Clear) : l.setOff = l := by
  apply if_neg
  rintro rfl
  exact h _ (List.mem_singleton_self _) rfl

/-- Only a backslash begins a lexeme in which a stray one is found. -/
theorem clear_read (c : Config) (m : Charmap) {b : UInt8} (hb : b ≠ Byte.backslash)
    (rest : List UInt8) : (read c m b rest).Clear := by
  intro f hf heq
  have hlexical := lexical_read c m b rest f hf
  rw [heq] at hlexical
  exact hb (Eq.symm hlexical)

/-- Where lines cannot be joined, a backslash is stray. -/
theorem read_backslash {c : Config} (hc : c.features.lineCont = false) (m : Charmap)
    (rest : List UInt8) : read c m Byte.backslash rest = stray Byte.backslash :=
  (if_neg (ne_mark c (by decide))).trans (if_neg (ne_true_of_eq_false hc))

/-- A backslash that does not stand at the end of a line joins none. -/
theorem joint_unjoined {rest : List UInt8} (h : Unjoined (Byte.backslash :: rest)) :
    joint rest = (stray Byte.backslash).setOff := by
  have hstray : (stray Byte.backslash).setOff =
      {meaning := .blank, size := 1, findings := [⟨0, .strayByte Byte.backslash⟩]} := if_pos rfl
  rw [hstray]
  cases rest with
  | nil => rfl
  | cons b more =>
    have hpair (e : UInt8) : [Byte.backslash, e] <:+: Byte.backslash :: e :: more :=
      ⟨[], more, rfl⟩
    apply joint_other
    · rintro rfl
      exact h.1 (hpair _)
    · rintro rfl
      exact h.2 (hpair _)

/-- Off backslashes, it makes no difference whether lines can be joined. -/
theorem read_set_lineCont_of_ne (c : Config) (m : Charmap) {b : UInt8} (hb : b ≠ Byte.backslash)
    (rest : List UInt8) :
    read (c.set .lineCont true) m b rest = read (c.set .lineCont false) m b rest := by
  have hrule := rule_read (c.set .lineCont false) m b
  generalize read (c.set .lineCont false) m b = rule at hrule
  have habsent : Feature.lineCont.Absent rest := fun _ h => by contradiction
  have hon {rule : List UInt8 → Lexeme} (h : Rule (c.set .lineCont true) m b rule) :
      read (c.set .lineCont true) m b rest = rule rest := congrFun (read_of_rule h) rest
  cases hrule with
  | localLabel h => exact hon (.localLabel h)
  | blank h => exact hon (.blank h)
  | word h => exact hon (.word h)
  | unmarked h => exact hon (.unmarked h)
  | lineEnd h => exact hon (.lineEnd h)
  | comment h => exact hon (.comment h)
  | joint h => exact absurd h hb
  | dotted h => exact (hon (.dotted h)).trans (dotted_set_of_ne c (by decide) habsent)
  | dollar h => exact hon (.dollar h)
  | percent h => exact hon (.percent h)
  | strLiteral h => exact hon (.strLiteral h)
  | charLiteral h => exact hon (.charLiteral h)
  | colon h => exact hon (.colon h)
  | pair h => exact hon (.pair h)
  | sign h => exact hon (.sign h)
  | stray h =>
    have h : Invalid (c.set .lineCont true) b := {h with joint := fun heq => absurd heq hb}
    exact hon (.stray h)

/-- **A stray backslash is passed over where lines can be joined**, and all else is read the same. -/
theorem read_set_lineCont (c : Config) (m : Charmap) {b : UInt8} {rest : List UInt8}
    (h : Unjoined (b :: rest)) :
    read (c.set .lineCont true) m b rest = (read (c.set .lineCont false) m b rest).setOff := by
  by_cases hb : b = Byte.backslash
  · subst hb
    have hoff := read_backslash (c := c.set .lineCont false) rfl m rest
    have hon := read_of_rule (c := c.set .lineCont true) (m := m) (.joint rfl rfl)
    rw [hoff, hon, joint_unjoined h]
  · rw [(clear_read _ m hb rest).setOff, read_set_lineCont_of_ne c m hb]

end Lexeme
end AsmScan
