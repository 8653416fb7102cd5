import AsmScan.Proofs.Byte
import AsmScan.Proofs.Keyword
import AsmScan.Proofs.Lexeme.Format

/-! What can be written, and how it is read.

An `Item` is something that a source can say in one token, and `Item.Spelling` are the
texts that say it: tokens that have one spelling, in any case; integers as
`Base.format` writes them; names; literals in escapes. Each of these texts is one
token (`Item.lexes`). -/
namespace AsmScan

/-- The capitals of a word make a word. -/
theorem Byte.isWord_toUpper (b : UInt8) : isWord (toUpper b) = isWord b := by
  rw [isWord, isNameStart_toUpper, isDigit_toUpper, isWord]

theorem Byte.isWord_iff {b : UInt8} :
    isWord b = true ↔ b ∈ letters ∨ b = underscore ∨ b ∈ digits := by
  rw [isWord, Bool.or_eq_true, isNameStart_iff, isDigit_iff, or_assoc]

/-! ### Items -/

/-- Whether all occurrences of a token are spelled alike, but for case. -/
def Token.isFixed : Token → Bool
  | .initial | .eof | .separator | .identifier | .mnemonic | .intConst | .charConst | .strConst
  | .programCounter | .unnamedLabel | .macroParameter | .repeatCounter => false
  | _ => true

/-- A name that can be written whatever the features: letters, digits and underscores, with no digit
in front. -/
structure Name where
  bytes : List UInt8
  starts : ∃ b ∈ bytes.head?, b ∈ Byte.letters ∨ b = Byte.underscore
  spelled : ∀ b ∈ bytes, b ∈ Byte.letters ∨ b = Byte.underscore ∨ b ∈ Byte.digits
  length_le : bytes.length ≤ 255

def Name.text (n : Name) : ShortString := ⟨n.bytes, n.length_le⟩

theorem Name.startsName (n : Name) : Lexeme.startsName n.bytes = true :=
  Lexeme.startsName_iff.2 n.starts

theorem Name.isWord (n : Name) : ∀ b ∈ n.bytes, Byte.isWord b = true :=
  fun b hb => Byte.isWord_iff.2 (n.spelled b hb)

/-- Something that a source can say in one token. -/
inductive Item where
  /-- A register, an operator, a mark, an override or a directive. -/
  | fixed (t : Token) (h : t.isFixed = true)
  | number (base : Base) (value : UInt32)
  /-- A reference so many unnamed labels ahead or back. -/
  | unnamed (count : Int) (h : count ≠ 0)
  /-- A name or a mnemonic, but no register. -/
  | name (n : Name)
      (h : ∀ letter ∈ [Byte.upperA, Byte.upperX, Byte.upperY, Byte.upperS],
        n.bytes.map Byte.toUpper ≠ [letter])
  | localLabel (n : Name) (h : n.bytes.length < 255)
  | string (bytes : List UInt8) (h : bytes.length ≤ 255)
  | char (b : UInt8)

namespace Item

/-- The texts that say an item. -/
def Spelling (c : Config) : Item → List UInt8 → Prop
  | .fixed t _, text => text.map Byte.toUpper = (utf8 t.name).map Byte.toUpper
  | .number base value, text => text = utf8 (base.format value.toNat)
  | .unnamed count _, text =>
    text = Byte.colon :: List.replicate count.natAbs (if 0 < count then Byte.plus else Byte.minus)
  | .name n _, text => text = n.bytes
  | .localLabel n _, text => text = c.localChar.byte :: n.bytes
  | .string bytes _, text =>
    ∃ body, Escaped bytes body ∧ text = Byte.doubleQuote :: (body ++ [Byte.doubleQuote])
  | .char b, text => ∃ body, Escaped [b] body ∧ text = Byte.singleQuote :: (body ++ [Byte.singleQuote])

/-- The token that an item is. -/
def token (c : Config) : Item → Token
  | .fixed t _ => t
  | .number .. => .intConst
  | .unnamed .. => .unnamedLabel
  | .name n _ => if n.bytes.map Byte.toUpper ∈ c.cpu.mnemonics.map utf8 then .mnemonic else .identifier
  | .localLabel .. => .identifier
  | .string .. => .strConst
  | .char _ => .charConst

/-- What an item carries. Only a character constant is translated. -/
def attr (c : Config) (m : Charmap) : Item → Attr
  | .fixed .. => .none
  | .number _ value => .int value.toNat
  | .unnamed count _ => .int count
  | .name n _ => .str n.text
  | .localLabel n h => .str ⟨c.localChar.byte :: n.bytes, h⟩
  | .string bytes h => .str ⟨bytes, h⟩
  | .char b => .int (m.translate b).toNat

end Item

namespace Lexeme

/-! ### Names -/

section Names
variable {c : Config} {m : Charmap} {fs : Features}

theorem nameRun_eq_self {bytes : List UInt8} (h : ∀ b ∈ bytes, Byte.isWord b = true) :
    nameRun fs bytes = bytes := by
  refine List.takeWhile_eq_self_iff.2 fun b hb => ?_
  have hword := h b hb
  rw [Byte.isWord, Bool.or_eq_true] at hword
  rcases hword with hword | hword <;> simp [isNameByte, hword]

theorem overlong_eq_nil {bytes : List UInt8} (h : bytes.length ≤ ShortString.maxLength) :
    overlong bytes = [] := by
  simp [overlong, Finding.atStartIf, Nat.not_lt.2 h]

/-- A name that is short enough is kept whole. -/
theorem named_eq (t : Token) {first : UInt8} {rest : List UInt8} {s : ShortString}
    (h : s.bytes = first :: rest) :
    named t first rest = {meaning := .token t (.str s), size := 1 + rest.length} := by
  have hkept : ShortString.truncate (first :: rest) = s :=
    h ▸ ShortString.truncate_of_length_le s.length_le
  have hlong : overlong (first :: rest) = [] := overlong_eq_nil (h ▸ s.length_le)
  unfold named
  simp only [hkept, hlong]

/-- A word is a name, unless it is a letter with a meaning of its own. -/
theorem word_eq_named {first : UInt8} {rest : List UInt8}
    (h : nameRun c.features rest = [] → letter? first rest = none) :
    word c first rest =
      named (if c.cpu.isMnemonic
          (ShortString.truncate (first :: nameRun c.features rest)).toUpper.bytes
        then .mnemonic else .identifier) first (nameRun c.features rest) := by
  unfold word
  simp only [List.isEmpty_iff]
  split
  next hrun => rw [h hrun, Option.getD_none]
  · rfl

theorem register?_eq_none {word : List UInt8}
    (h : ∀ letter ∈ [Byte.upperA, Byte.upperX, Byte.upperY, Byte.upperS], word ≠ [letter]) :
    Keyword.register? word = none := by
  unfold Keyword.register?
  split
  case h_5 => rfl
  all_goals exact absurd rfl (h _ (by decide))

/-- A name is a mnemonic or an identifier. -/
theorem lexes_name (n : Name)
    (h : ∀ letter ∈ [Byte.upperA, Byte.upperX, Byte.upperY, Byte.upperS],
      n.bytes.map Byte.toUpper ≠ [letter]) :
    Lexes c m n.bytes (Item.token c (.name n h)) (.str n.text) := by
  cases htext : n.bytes with
  | nil =>
    have hstarts := n.startsName
    rw [htext] at hstarts
    contradiction
  | cons first rest =>
    have hfirst : Byte.isNameStart first = true := by
      have hstarts := n.startsName
      rwa [htext] at hstarts
    have hrun : nameRun c.features rest = rest :=
      nameRun_eq_self fun b hb => n.isWord b (htext ▸ List.mem_cons_of_mem first hb)
    have hkept : ShortString.truncate (first :: rest) = n.text :=
      htext ▸ ShortString.truncate_of_length_le n.text.length_le
    have hletter : nameRun c.features rest = [] → letter? first rest = none := by
      intro hnil
      rw [hrun] at hnil
      have hregister := register?_eq_none h
      rw [htext, hnil] at hregister
      rw [hnil, letter?_other first (by simp), Option.map_eq_none_iff]
      exact hregister
    have hmnemonic : c.cpu.isMnemonic n.text.toUpper.bytes = true ↔
        n.bytes.map Byte.toUpper ∈ c.cpu.mnemonics.map utf8 := by
      rw [c.cpu.isMnemonic_iff, List.mem_map]
      rfl
    apply lexes_of_read (not_mem_runners (by simp [Byte.isWord, hfirst]))
    rw [read_word c m rest hfirst, word_eq_named hletter, hrun, hkept, named_eq _ (s := n.text) htext]
    simp only [hmnemonic, Item.token]

theorem lexes_localLabel (n : Name) (h : n.bytes.length < 255) :
    Lexes c m (c.localChar.byte :: n.bytes) .identifier (.str ⟨c.localChar.byte :: n.bytes, h⟩) := by
  have hmark : c.localChar.byte ∉ runners := by
    cases c.localChar <;> decide
  apply lexes_of_read hmark
  rw [read_mark, localLabel, if_pos n.startsName, nameRun_eq_self n.isWord,
    named_eq _ (s := ⟨c.localChar.byte :: n.bytes, h⟩) rfl]

end Names

/-! ### Tokens of one spelling -/

/-- A dotted word of the table: capitals and digits after the dot, a capital first. -/
structure IsDottedWord (word : List UInt8) : Prop where
  dot : word.head? = some Byte.dot
  starts : startsName word.tail = true
  folded : word.map Byte.toUpper = word
  isWord : ∀ b ∈ word.tail, Byte.isWord b = true
  length_le : word.length ≤ ShortString.maxLength

theorem isDottedWord {w : String} {t : Token} (h : (w, t) ∈ Keyword.dotted) :
    IsDottedWord (utf8 w) := by
  have hall : ∀ entry ∈ Keyword.dotted, (utf8 entry.1).head? = some Byte.dot ∧
      startsName (utf8 entry.1).tail = true ∧
      (utf8 entry.1).map Byte.toUpper = utf8 entry.1 ∧
      (utf8 entry.1).tail.all Byte.isWord = true ∧
      (utf8 entry.1).length ≤ ShortString.maxLength := by
    decide +kernel
  obtain ⟨hdot, hstarts, hfolded, hword, hlength⟩ := hall _ h
  exact ⟨hdot, hstarts, hfolded, List.all_eq_true.1 hword, hlength⟩

/-- How a token of one spelling is spelled. -/
inductive Form (t : Token) : Prop where
  | letter {b : UInt8} (hname : utf8 t.name = [b]) (hb : Byte.isNameStart (Byte.toUpper b) = true)
      (h : Keyword.register? [Byte.toUpper b] = some t)
  | override {b : UInt8} (hname : utf8 t.name = [b, Byte.colon])
      (hb : Byte.isNameStart (Byte.toUpper b) = true) (h : Keyword.override? (Byte.toUpper b) = some t)
  | dotted (h : (t.name, t) ∈ Keyword.dotted)
  | sign {first : UInt8} {rest : List UInt8} (hname : utf8 t.name = first :: rest)
      (hsign : (first :: rest).all (fun b => !Byte.isUpper (Byte.toUpper b)) = true)
      (hfirst : first ∉ runners) (h : ∀ c m, read c m first rest = plain t (1 + rest.length))

/-- Every token of one spelling has one of the forms. -/
theorem form {t : Token} (h : t.isFixed = true) : Form t := by
  cases t with
  | initial | eof | separator | identifier | mnemonic | intConst | charConst | strConst
  | programCounter | unnamedLabel | macroParameter | repeatCounter => contradiction
  | registerA | registerX | registerY | registerS => exact .letter rfl rfl rfl
  | overrideZeropage | overrideAbsolute | overrideFar => exact .override rfl rfl rfl
  | boolXor | boolNot => exact .dotted (by decide +kernel)
  | directive d => exact .dotted (Keyword.directive_mem_dotted d)
  | _ => exact .sign rfl rfl (by decide) fun c m => if_neg (ne_mark c (by decide))

section Fixed
variable {c : Config} {m : Charmap} {t : Token}

/-- A letter with a meaning of its own. -/
theorem lexes_letter {b : UInt8} {rest : List UInt8} (hb : Byte.isNameStart b = true)
    (hrun : nameRun c.features rest = [])
    (h : letter? b rest = some (plain t (1 + rest.length))) : Lexes c m (b :: rest) t .none := by
  apply lexes_of_read (not_mem_runners (by simp [Byte.isWord, hb]))
  rw [read_word c m rest hb]
  unfold word
  simp only [hrun, h, List.isEmpty_nil, if_true, Option.getD_some]
  rfl

theorem lexes_dotted {word text : List UInt8} (hword : IsDottedWord word)
    (h : Keyword.dotted? word = some t) (htext : text.map Byte.toUpper = word) :
    Lexes c m text t .none := by
  obtain ⟨hdot, hstarts, -, hall, hlength⟩ := hword
  subst htext
  cases text with
  | nil => simp at hdot
  | cons first rest =>
    have hfirst : first = Byte.dot := Byte.eq_of_toUpper_eq (Option.some.inj hdot) rfl
    subst hfirst
    have hstarts : startsName rest = true := by
      cases rest with
      | nil => simp [startsName] at hstarts
      | cons b more => exact (Byte.isNameStart_toUpper b).symm.trans hstarts
    have hrun : nameRun c.features rest = rest :=
      nameRun_eq_self fun b hb => (Byte.isWord_toUpper b).symm.trans (hall _ (List.mem_map_of_mem hb))
    rw [List.length_map] at hlength
    have hread : read c m Byte.dot rest = dotted c rest := if_neg (ne_mark c (by decide))
    apply lexes_of_read (by decide)
    rw [hread, dotted, if_pos hstarts]
    simp only [hrun, ShortString.truncate_of_length_le hlength, ShortString.bytes_toUpper, h,
      overlong_eq_nil hlength]

/-- A token of one spelling may be written in any case. -/
theorem lexes_fixed (ht : t.isFixed = true) {text : List UInt8}
    (h : text.map Byte.toUpper = (utf8 t.name).map Byte.toUpper) : Lexes c m text t .none := by
  cases form ht with
  | @letter b hname hb hregister =>
    rw [hname, List.map_singleton] at h
    obtain ⟨b', rfl, hb'⟩ := List.map_eq_singleton_iff.1 h
    refine lexes_letter ((Byte.isNameStart_toUpper _).symm.trans (hb' ▸ hb)) rfl ?_
    rw [letter?_other b' (by simp), hb', hregister]
    rfl
  | @override b hname hb hoverride =>
    rw [hname, List.map_cons, List.map_singleton] at h
    obtain ⟨b', more, rfl, hb', hmore⟩ := List.map_eq_cons_iff.1 h
    obtain ⟨colon, rfl, hcolon⟩ := List.map_eq_singleton_iff.1 hmore
    cases Byte.eq_of_toUpper_eq hcolon rfl
    refine lexes_letter ((Byte.isNameStart_toUpper _).symm.trans (hb' ▸ hb)) rfl ?_
    unfold letter?
    rw [hb', hoverride]
    rfl
  | dotted hlisted =>
    have hword := isDottedWord hlisted
    have hlookup : Keyword.dotted? (utf8 t.name) = some t :=
      Keyword.dotted?_eq_some_iff.2 ⟨t.name, hlisted, Eq.refl _⟩
    rw [hword.folded] at h
    exact lexes_dotted hword hlookup h
  | @sign first rest hname hsign hfirst hread =>
    rw [hname] at h
    cases Byte.eq_of_map_toUpper_eq h fun b hb => by simpa using List.all_eq_true.1 hsign b hb
    exact lexes_of_read hfirst (hread c m)

end Fixed

end Lexeme

/-- **Whatever says an item is read as its token.** -/
theorem Item.lexes {c : Config} (hc : c.features.stringEscapes = true) (m : Charmap) {item : Item}
    {text : List UInt8} (h : item.Spelling c text) :
    Lexeme.Lexes c m text (item.token c) (item.attr c m) := by
  cases item with
  | fixed t ht => exact Lexeme.lexes_fixed ht h
  | number base value =>
    cases h
    exact Lexeme.lexes_number base value
  | unnamed count hcount =>
    cases h
    exact Lexeme.lexes_unnamed hcount
  | name n hn =>
    cases h
    exact Lexeme.lexes_name n hn
  | localLabel n hn =>
    cases h
    exact Lexeme.lexes_localLabel n hn
  | string bytes hlength =>
    obtain ⟨body, hbody, rfl⟩ := h
    exact Lexeme.lexes_string hc ⟨bytes, hlength⟩ hbody
  | char b =>
    obtain ⟨body, hbody, rfl⟩ := h
    exact Lexeme.lexes_char hc b hbody

end AsmScan
