import AsmScan.Proofs.Lexeme.Alphabet
import AsmScan.Proofs.Lexeme.Spelling

/-! What words are.

A word is a letter or an underscore with all that goes on a name behind it (`WholeWord`).
What it is depends on what stands in front of it, nothing, a dot or the mark of local labels,
and for a single letter on the byte behind it: `Classified` lists the cases, each with what
excludes those before it. Words are looked up as far as they are kept, but no word of the
tables is so long that this makes a difference (`kept_iff`). Every word is read as what it is,
to its end (`read_classified`). -/
namespace AsmScan.Lexeme

/-- The overrides of an address size, by their letters. -/
def overrides : List (UInt8 × Token) :=
  [(Byte.upperA, .overrideAbsolute), (Byte.upperF, .overrideFar), (Byte.upperZ, .overrideZeropage)]

/-- The registers, by their letters. -/
def registers : List (UInt8 × Token) :=
  [(Byte.upperA, .registerA), (Byte.upperX, .registerX), (Byte.upperY, .registerY),
    (Byte.upperS, .registerS)]

/-- A word that goes on as far as it can before some bytes. -/
structure WholeWord (fs : Features) (word after : List UInt8) : Prop where
  starts : ∃ b ∈ word.head?, b ∈ Byte.letters ∨ b = Byte.underscore
  goes : ∀ b ∈ word, GoesOnName fs b
  ends : ∀ b ∈ after.head?, ¬ GoesOnName fs b

/-- A letter of an override, in either case, before a colon. -/
def IsOverride (word after : List UInt8) (t : Token) : Prop :=
  ∃ letter, word = [letter] ∧ (Byte.toUpper letter, t) ∈ overrides ∧ after.head? = some Byte.colon

/-- A letter of a register, in either case. -/
def IsRegister (word : List UInt8) (t : Token) : Prop :=
  ∃ letter, word = [letter] ∧ (Byte.toUpper letter, t) ∈ registers

/-- A word that is listed with a token, in any case. -/
def IsKeyword (word : List UInt8) (t : Token) : Prop :=
  ∃ key, (key, t) ∈ Keyword.dotted ∧ utf8 key = word.map Byte.toUpper

/-- An instruction of the processor, in any case. -/
def IsMnemonic (cpu : Cpu) (word : List UInt8) : Prop :=
  ∃ key ∈ cpu.mnemonics, utf8 key = word.map Byte.toUpper

/-- What is wrong with a word, and what is said of it. -/
abbrev Reports := List (ProblemKind × String)

/-- The errors at a position. -/
def Reports.errors (reports : Reports) (pos : Position) : List Message :=
  reports.map fun r => ⟨.error, r.1, pos, r.2⟩

/-- What is wrong with a name that cannot be kept whole. -/
def tooLong (name : List UInt8) : Reports :=
  if 255 < name.length then [(.literalTooLong, "identifier too long")] else []

/-- A dotted word that is no directive. -/
def unknownDirective (name : List UInt8) : Reports :=
  [(.invalidDirective, s!"unknown directive '{ShortString.truncate name}'")]

/-- What a word is behind what stands in front of it: its token, if it is one, with what the token
carries; how many bytes that takes; and what is wrong. -/
inductive Classified (c : Config) (word after : List UInt8) :
    List UInt8 → Option (Token × Attr) → Nat → Reports → Prop where
  | override {t : Token} : IsOverride word after t →
      Classified c word after [] (some (t, .none)) (word.length + 1) []
  | register {t : Token} : (∀ t, ¬ IsOverride word after t) → IsRegister word t →
      Classified c word after [] (some (t, .none)) word.length []
  | mnemonic : (∀ t, ¬ IsOverride word after t) → (∀ t, ¬ IsRegister word t) →
      IsMnemonic c.cpu word →
      Classified c word after [] (some (.mnemonic, .str (.truncate word))) word.length (tooLong word)
  | identifier : (∀ t, ¬ IsOverride word after t) → (∀ t, ¬ IsRegister word t) →
      ¬ IsMnemonic c.cpu word →
      Classified c word after [] (some (.identifier, .str (.truncate word))) word.length (tooLong word)
  | keyword {t : Token} : IsKeyword (Byte.dot :: word) t →
      Classified c word after [Byte.dot] (some (t, .none)) (1 + word.length) []
  | dotted : (∀ t, ¬ IsKeyword (Byte.dot :: word) t) → c.features.leadingDotInIdentifiers = true →
      Classified c word after [Byte.dot] (some (.identifier, .str (.truncate (Byte.dot :: word))))
        (1 + word.length) (tooLong (Byte.dot :: word))
  /-- There is no such directive. -/
  | unknown : (∀ t, ¬ IsKeyword (Byte.dot :: word) t) → c.features.leadingDotInIdentifiers = false →
      Classified c word after [Byte.dot] none (1 + word.length)
        (tooLong (Byte.dot :: word) ++ unknownDirective (Byte.dot :: word))
  /-- Whatever the word would be without the mark. -/
  | localLabel : Classified c word after [c.localChar.byte]
      (some (.identifier, .str (.truncate (c.localChar.byte :: word))))
      (1 + word.length) (tooLong (c.localChar.byte :: word))

/-- What the scan makes of that. -/
def outcomeMeaning : Option (Token × Attr) → Meaning
  | some (t, attr) => .token t attr
  | none => .rejected

/-! ### Letters -/

theorem override?_eq_some_iff {b : UInt8} {t : Token} :
    Keyword.override? b = some t ↔ (b, t) ∈ overrides := by
  constructor
  · intro h
    unfold Keyword.override? at h
    split at h
    case h_4 => cases h
    all_goals
      cases h
      decide
  · intro h
    simp only [overrides, List.mem_cons, Prod.mk.injEq, List.not_mem_nil, or_false] at h
    rcases h with ⟨rfl, rfl⟩ | ⟨rfl, rfl⟩ | ⟨rfl, rfl⟩ <;> rfl

theorem register?_eq_some_iff {b : UInt8} {t : Token} :
    Keyword.register? [b] = some t ↔ (b, t) ∈ registers := by
  constructor
  · intro h
    unfold Keyword.register? at h
    split at h
    case h_5 => cases h
    all_goals
      next hb =>
        cases hb
        cases h
        decide
  · intro h
    simp only [registers, List.mem_cons, Prod.mk.injEq, List.not_mem_nil, or_false] at h
    rcases h with ⟨rfl, rfl⟩ | ⟨rfl, rfl⟩ | ⟨rfl, rfl⟩ | ⟨rfl, rfl⟩ <;> rfl

/-! ### Words that are kept in part -/

/-- What is said of short texts only is said of a text just if it is said of what is kept of it. -/
theorem kept_iff {p : List UInt8 → Prop} (hshort : ∀ text, p text → text.length < ShortString.maxLength)
    (word : List UInt8) :
    p (ShortString.truncate word).toUpper.bytes ↔ p (word.map Byte.toUpper) := by
  by_cases hlength : word.length ≤ ShortString.maxLength
  · rw [ShortString.bytes_toUpper, ShortString.truncate_of_length_le hlength]
  · have hkept : (ShortString.truncate word).toUpper.bytes.length = ShortString.maxLength := by
      simp only [ShortString.bytes_toUpper, List.length_map, ShortString.truncate, List.length_take]
      omega
    constructor <;> intro h
    · exact absurd (hshort _ h) (by omega)
    · have := hshort _ h
      rw [List.length_map] at this
      omega

theorem isMnemonic_kept_iff (cpu : Cpu) (word : List UInt8) :
    cpu.isMnemonic (ShortString.truncate word).toUpper.bytes = true ↔ IsMnemonic cpu word := by
  rw [kept_iff (p := (cpu.isMnemonic · = true)), cpu.isMnemonic_iff]
  · rfl
  · intro text h
    obtain ⟨key, hkey, rfl⟩ := cpu.isMnemonic_iff.1 h
    exact Nat.lt_of_le_of_lt (cpu.length_mnemonics key hkey).2 (by decide)

/-- The words of the table are short. -/
theorem IsKeyword.length_lt {word : List UInt8} {t : Token} (h : IsKeyword word t) :
    word.length < ShortString.maxLength := by
  have hall : ∀ entry ∈ Keyword.dotted, (utf8 entry.1).length < ShortString.maxLength := by
    decide +kernel
  obtain ⟨key, hkey, hword⟩ := h
  rw [← List.length_map (f := Byte.toUpper), ← hword]
  exact hall _ hkey

theorem dotted?_kept_iff (word : List UInt8) (t : Token) :
    Keyword.dotted? (ShortString.truncate word).toUpper.bytes = some t ↔ IsKeyword word t := by
  rw [kept_iff (p := (Keyword.dotted? · = some t)), Keyword.dotted?_eq_some_iff]
  · rfl
  · intro text h
    obtain ⟨key, hkey, htext⟩ := Keyword.dotted?_eq_some_iff.1 h
    have hfolded : text.map Byte.toUpper = text := htext ▸ (isDottedWord hkey).folded
    exact IsKeyword.length_lt ⟨key, hkey, htext.trans hfolded.symm⟩

/-! ### Words as they are read -/

/-- Findings at the first byte, with what is said of them. -/
def Reported (findings : List Finding) (reports : Reports) : Prop :=
  ∃ problems : List Problem, findings = problems.map (Finding.mk 0) ∧
    ∀ pos, problems.map (·.toMessage pos) = reports.errors pos

/-- A lexeme that is just that. -/
structure Agrees (l : Lexeme) (outcome : Option (Token × Attr)) (size : Nat)
    (reports : Reports) : Prop where
  meaning : l.meaning = outcomeMeaning outcome
  size : l.size = size
  reported : Reported l.findings reports

theorem reported_nil : Reported [] [] := ⟨[], rfl, fun _ => rfl⟩

theorem Reported.append {findings more : List Finding} {reports others : Reports}
    (h : Reported findings reports) (hmore : Reported more others) :
    Reported (findings ++ more) (reports ++ others) := by
  obtain ⟨problems, rfl, herrors⟩ := h
  obtain ⟨problems', rfl, herrors'⟩ := hmore
  refine ⟨problems ++ problems', List.map_append.symm, fun pos => ?_⟩
  rw [List.map_append, herrors, herrors', Reports.errors, Reports.errors, ← List.map_append]
  rfl

theorem reported_overlong (name : List UInt8) : Reported (overlong name) (tooLong name) := by
  have hmax : ShortString.maxLength = 255 := rfl
  simp only [overlong, tooLong, Finding.atStartIf, hmax, decide_eq_true_eq]
  split
  · exact ⟨[.nameTooLong], rfl, fun _ => rfl⟩
  · exact reported_nil

theorem agrees_named (t : Token) (first : UInt8) (more : List UInt8) :
    Agrees (named t first more) (some (t, .str (.truncate (first :: more)))) (1 + more.length)
      (tooLong (first :: more)) :=
  ⟨rfl, rfl, reported_overlong _⟩

section Words
variable {c : Config} {first : UInt8} {word more after : List UInt8}

theorem wholeWord_iff {fs : Features} :
    WholeWord fs word after ↔ startsName word = true ∧ (∀ b ∈ word, isNameByte fs b = true) ∧
      ∀ b ∈ after.head?, isNameByte fs b = false := by
  simp only [startsName_iff, isNameByte_iff, isNameByte_eq_false_iff]
  exact ⟨fun h => ⟨h.starts, h.goes, h.ends⟩, fun h => ⟨h.1, h.2.1, h.2.2⟩⟩

theorem WholeWord.nameRun_append (h : WholeWord c.features word after) :
    nameRun c.features (word ++ after) = word := by
  obtain ⟨-, hgoes, hends⟩ := wholeWord_iff.1 h
  rw [nameRun, takeWhile_append _ hends]
  exact List.takeWhile_eq_self_iff.2 hgoes

theorem WholeWord.startsName_append (h : WholeWord c.features word after) :
    startsName (word ++ after) = true := by
  have hstarts := (wholeWord_iff.1 h).1
  cases word with
  | nil => cases hstarts
  | cons => exact hstarts

/-- Before a colon a letter may be an override, and else it may be a register. -/
theorem letter?_override {t : Token} (h : (Byte.toUpper first, t) ∈ overrides)
    (rest : List UInt8) : letter? first (Byte.colon :: rest) = some (plain t 2) := by
  unfold letter?
  rw [override?_eq_some_iff.2 h]
  rfl

theorem letter?_of_not_override (h : ∀ t, ¬ IsOverride [first] after t) :
    letter? first after = (Keyword.register? [Byte.toUpper first]).map (plain · 1) := by
  by_cases hcolon : after.head? = some Byte.colon
  · have hnone : Keyword.override? (Byte.toUpper first) = none := by
      cases hoverride : Keyword.override? (Byte.toUpper first) with
      | none => rfl
      | some t => exact absurd ⟨first, rfl, override?_eq_some_iff.1 hoverride, hcolon⟩ (h t)
    unfold letter?
    rw [hnone]
  · exact letter?_other first hcolon

/-- With nothing in front of it, a word is a letter with a meaning of its own, or a name. -/
theorem word_classified (h : WholeWord c.features (first :: more) after) :
    ∃ outcome size reports, Classified c (first :: more) after [] outcome size reports ∧
      Agrees (Lexeme.word c first (more ++ after)) outcome size reports := by
  obtain ⟨-, hgoes, hends⟩ := wholeWord_iff.1 h
  have hrun : nameRun c.features (more ++ after) = more := by
    rw [nameRun, takeWhile_append _ hends]
    exact List.takeWhile_eq_self_iff.2 fun b hb => hgoes b (List.mem_cons_of_mem _ hb)
  have hletter {l : Lexeme} (hmore : more = []) (hl : letter? first after = some l) :
      Lexeme.word c first (more ++ after) = l := by
    subst hmore
    unfold Lexeme.word
    simp only [hrun, List.isEmpty_nil, if_true]
    rw [List.nil_append, hl, Option.getD_some]
  by_cases hover : ∃ t, IsOverride (first :: more) after t
  · obtain ⟨t, hover⟩ := hover
    obtain ⟨letter, hword, hmem, hcolon⟩ := id hover
    obtain ⟨rfl, rfl⟩ := List.cons.inj hword
    obtain ⟨rest, rfl⟩ := List.head?_eq_some_iff.1 hcolon
    rw [hletter rfl (letter?_override hmem rest)]
    exact ⟨_, _, _, .override hover, rfl, rfl, reported_nil⟩
  rw [not_exists] at hover
  by_cases hregister : ∃ t, IsRegister (first :: more) t
  · obtain ⟨t, hregister⟩ := hregister
    obtain ⟨letter, hword, hmem⟩ := id hregister
    obtain ⟨rfl, rfl⟩ := List.cons.inj hword
    have hl : letter? first after = some (plain t 1) := by
      rw [letter?_of_not_override hover, register?_eq_some_iff.2 hmem]
      rfl
    rw [hletter rfl hl]
    exact ⟨_, _, _, .register hover hregister, rfl, rfl, reported_nil⟩
  rw [not_exists] at hregister
  have hnone : nameRun c.features (more ++ after) = [] → letter? first (more ++ after) = none := by
    intro hnil
    rw [hrun] at hnil
    subst hnil
    rw [List.nil_append, letter?_of_not_override hover, Option.map_eq_none_iff,
      Option.eq_none_iff_forall_ne_some]
    exact fun t ht => hregister t ⟨first, rfl, register?_eq_some_iff.1 ht⟩
  rw [word_eq_named hnone, hrun]
  have hlength : 1 + more.length = (first :: more).length := Nat.add_comm ..
  by_cases hmnemonic : IsMnemonic c.cpu (first :: more)
  · rw [if_pos ((isMnemonic_kept_iff c.cpu _).2 hmnemonic)]
    exact ⟨_, _, _, .mnemonic hover hregister hmnemonic, hlength ▸ agrees_named ..⟩
  · rw [if_neg (mt (isMnemonic_kept_iff c.cpu _).1 hmnemonic)]
    exact ⟨_, _, _, .identifier hover hregister hmnemonic, hlength ▸ agrees_named ..⟩

/-- Behind a dot, it is a keyword, or a name where dots can begin one, or nothing. -/
theorem dotted_classified (h : WholeWord c.features word after) :
    ∃ outcome size reports, Classified c word after [Byte.dot] outcome size reports ∧
      Agrees (Lexeme.dotted c (word ++ after)) outcome size reports := by
  unfold Lexeme.dotted
  simp only [h.startsName_append, h.nameRun_append, if_true]
  cases hkeyword : Keyword.dotted? (ShortString.truncate (Byte.dot :: word)).toUpper.bytes with
  | some t =>
    have hlisted := (dotted?_kept_iff _ t).1 hkeyword
    have hwhole := overlong_eq_nil (Nat.le_of_lt hlisted.length_lt)
    exact ⟨_, _, _, .keyword hlisted, rfl, rfl, hwhole ▸ reported_nil⟩
  | none =>
    have hunlisted (t : Token) : ¬ IsKeyword (Byte.dot :: word) t := by
      rw [← dotted?_kept_iff, hkeyword]
      exact (Option.some_ne_none t).symm
    cases hdot : c.features.leadingDotInIdentifiers with
    | true => exact ⟨_, _, _, .dotted hunlisted hdot, agrees_named ..⟩
    | false =>
      have hunknown : Reported [⟨0, .unknownDirective (.truncate (Byte.dot :: word))⟩]
          (unknownDirective (Byte.dot :: word)) := ⟨[_], rfl, fun _ => rfl⟩
      exact ⟨_, _, _, .unknown hunlisted hdot, rfl, rfl, (reported_overlong _).append hunknown⟩

/-- Behind the mark of local labels it is a local label. -/
theorem localLabel_classified (h : WholeWord c.features word after) :
    ∃ outcome size reports, Classified c word after [c.localChar.byte] outcome size reports ∧
      Agrees (Lexeme.localLabel c (word ++ after)) outcome size reports := by
  unfold Lexeme.localLabel
  rw [if_pos h.startsName_append, h.nameRun_append]
  exact ⟨_, _, _, .localLabel, agrees_named ..⟩

/-- **Every word is read as what it is**, to its end. -/
theorem read_classified (m : Charmap) {lead : List UInt8}
    (hlead : lead = [] ∨ lead = [Byte.dot] ∨ lead = [c.localChar.byte])
    (h : WholeWord c.features word after) :
    ∃ outcome size reports, Classified c word after lead outcome size reports ∧
      ∃ first rest, lead ++ (word ++ after) = first :: rest ∧
        Agrees (read c m first rest) outcome size reports := by
  rcases hlead with rfl | rfl | rfl
  · have hstarts := (wholeWord_iff.1 h).1
    cases word with
    | nil => cases hstarts
    | cons first more =>
      obtain ⟨outcome, size, reports, hclassified, hagrees⟩ := word_classified h
      exact ⟨outcome, size, reports, hclassified, first, more ++ after, rfl,
        read_word c m _ hstarts ▸ hagrees⟩
  · obtain ⟨outcome, size, reports, hclassified, hagrees⟩ := dotted_classified h
    have hread : read c m Byte.dot (word ++ after) = Lexeme.dotted c (word ++ after) :=
      if_neg (ne_mark c (by decide))
    exact ⟨outcome, size, reports, hclassified, _, _, rfl, hread ▸ hagrees⟩
  · obtain ⟨outcome, size, reports, hclassified, hagrees⟩ := localLabel_classified h
    exact ⟨outcome, size, reports, hclassified, _, _, rfl, read_mark c m _ ▸ hagrees⟩

end Words

end AsmScan.Lexeme
