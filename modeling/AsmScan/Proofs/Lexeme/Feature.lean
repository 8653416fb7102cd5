import AsmScan.Proofs.Lexeme.Case

/-! Features that make no difference.

Four features give a meaning to a byte, and where that byte does not stand they make no
difference. The four others let stand what is a problem without them, and where there is
no problem they make none either. `Idle` says that one or the other is so of a lexeme;
then it is the same lexeme with the feature and without (`read_set`). -/
namespace AsmScan

namespace Feature

/-- The byte that the feature gives a meaning to, if it is one that does. -/
def byte? : Feature → Option UInt8
  | .atInIdentifiers => some Byte.atSign
  | .dollarInIdentifiers => some Byte.dollar
  | .stringEscapes => some Byte.backslash
  | .underlineInNumbers => some Byte.underscore
  | .dollarIsPc | .leadingDotInIdentifiers | .lineCont | .looseStringTerm => none

/-- The byte of the feature does not stand in a text. -/
def Absent (f : Feature) (text : List UInt8) : Prop := ∀ b, f.byte? = some b → b ∉ text

theorem Absent.mono {f : Feature} {text part : List UInt8} (h : f.Absent text)
    (hpart : part ⊆ text) : f.Absent part :=
  fun b hb hmem => h b hb (hpart hmem)

/-- The feature has nothing to do with a text, in which these problems were found without it. -/
structure Idle (f : Feature) (text : List UInt8) (findings : List Finding) : Prop where
  absent : f.Absent text
  clean : f.byte? = none → findings = []

end Feature

/-- Whether a feature is on has nothing to do with another. -/
theorem Features.get_set_of_ne (fs : Features) {f g : Feature} (h : g ≠ f) :
    (fs.set f true).get g = (fs.set f false).get g := by
  cases f <;> cases g <;> first | rfl | contradiction

/-- The configuration with a feature turned on or off. -/
def Config.set (c : Config) (f : Feature) (on : Bool) : Config :=
  {c with features := c.features.set f on}

/-- Bytes that are alike to two predicates go on a run for both or for neither. -/
theorem takeWhile_congr {p q : UInt8 → Bool} {bytes : List UInt8} (h : ∀ b ∈ bytes, p b = q b) :
    bytes.takeWhile p = bytes.takeWhile q := by
  induction bytes with
  | nil => rfl
  | cons b more ih =>
    obtain ⟨hb, hmore⟩ := List.forall_mem_cons.1 h
    rw [List.takeWhile_cons, List.takeWhile_cons, hb, ih hmore]

namespace Lexeme

/-! ### Runs -/

section Runs
variable (fs : Features) {f : Feature} {rest : List UInt8} (h : f.Absent rest)
include h

theorem nameRun_set : nameRun (fs.set f true) rest = nameRun (fs.set f false) rest := by
  apply takeWhile_congr
  intro b hb
  cases f with
  | atInIdentifiers =>
    have hne : (b == Byte.atSign) = false := beq_eq_false_iff_ne.2 fun heq => h _ rfl (heq ▸ hb)
    simp only [isNameByte, hne, Bool.false_and]
    rfl
  | dollarInIdentifiers =>
    have hne : (b == Byte.dollar) = false := beq_eq_false_iff_ne.2 fun heq => h _ rfl (heq ▸ hb)
    simp only [isNameByte, hne, Bool.false_and]
    rfl
  | _ => rfl

theorem digitRun_set : digitRun (fs.set f true) rest = digitRun (fs.set f false) rest := by
  apply takeWhile_congr
  intro b hb
  cases f with
  | underlineInNumbers =>
    have hne : (b == Byte.underscore) = false :=
      beq_eq_false_iff_ne.2 fun heq => h _ rfl (heq ▸ hb)
    simp only [isNumberByte, hne, Bool.false_and]
  | _ => rfl

theorem quoted_set (quote : UInt8) :
    Quoted.read quote (fs.set f true).stringEscapes rest =
      Quoted.read quote (fs.set f false).stringEscapes rest := by
  cases f with
  | stringEscapes =>
    have hslash : Byte.backslash ∉ rest := h _ rfl
    have hbody (escapes : Bool) :
        Quoted.body quote escapes false rest = rest.takeWhile (isInner quote) :=
      body_unescaped (.inr hslash)
    have hpieces : Piece.ofBytes (rest.takeWhile (isInner quote)) =
        (rest.takeWhile (isInner quote)).map .byte :=
      ofBytes_unescaped (mt (List.takeWhile_prefix _).mem hslash)
    simp only [Quoted.read, hbody, hpieces, ite_self]
  | _ => rfl

end Runs

/-! ### Words -/

section Words
variable (c : Config) {f : Feature} {rest : List UInt8}

theorem localLabel_set (h : f.Absent rest) :
    localLabel (c.set f true) rest = localLabel (c.set f false) rest := by
  have hrun : nameRun (c.set f true).features rest = nameRun (c.set f false).features rest :=
    nameRun_set c.features h
  unfold localLabel
  rw [hrun]
  rfl

theorem word_set (b : UInt8) (h : f.Absent rest) :
    word (c.set f true) b rest = word (c.set f false) b rest := by
  have hrun : nameRun (c.set f true).features rest = nameRun (c.set f false).features rest :=
    nameRun_set c.features h
  unfold word
  rw [hrun]
  rfl

theorem dotted_set_of_ne (hf : f ≠ .leadingDotInIdentifiers) (h : f.Absent rest) :
    dotted (c.set f true) rest = dotted (c.set f false) rest := by
  have hrun : nameRun (c.set f true).features rest = nameRun (c.set f false).features rest :=
    nameRun_set c.features h
  have hdot : (c.set f true).features.leadingDotInIdentifiers =
      (c.set f false).features.leadingDotInIdentifiers :=
    c.features.get_set_of_ne (Ne.symm hf)
  unfold dotted
  simp only [hrun, hdot]

theorem dotted_set (h : f.Idle rest (dotted (c.set f false) rest).findings) :
    dotted (c.set f true) rest = dotted (c.set f false) rest := by
  by_cases hf : f = .leadingDotInIdentifiers
  · subst hf
    have hrun : nameRun (c.set .leadingDotInIdentifiers true).features rest =
        nameRun (c.set .leadingDotInIdentifiers false).features rest :=
      nameRun_set c.features h.absent
    have hclean := h.clean rfl
    unfold dotted at hclean ⊢
    simp only [hrun] at hclean ⊢
    split
    next hstarts =>
      rw [if_pos hstarts] at hclean
      split
      · rfl
      next hunknown =>
        -- Without the feature the word is an unknown directive.
        rw [hunknown] at hclean
        exact absurd (List.append_eq_nil_iff.1 hclean).2 (List.cons_ne_nil _ _)
    · rfl
  · exact dotted_set_of_ne c hf h.absent

end Words

/-! ### Numbers -/

section Numbers
variable (fs : Features) {f : Feature} {rest : List UInt8}

theorem marked_set (base : Base) (marker : Nat) (hmarker : 0 < marker) (h : f.Absent rest) :
    marked (fs.set f true) base marker rest hmarker =
      marked (fs.set f false) base marker rest hmarker := by
  simp only [marked, digitRun_set fs h]

theorem unmarked_set (b : UInt8) (h : f.Absent rest) :
    unmarked (fs.set f true) b rest = unmarked (fs.set f false) b rest := by
  have hmarked (base : Base) (n : Nat) :
      marked (fs.set f true) base 2 (rest.drop n).tail =
        marked (fs.set f false) base 2 (rest.drop n).tail :=
    marked_set fs base 2 _ (h.mono fun _ hmem => List.mem_of_mem_drop (List.mem_of_mem_tail hmem))
  unfold unmarked
  simp only [digitRun_set fs h, hmarked]

theorem percent_set (h : f.Absent rest) :
    percent (fs.set f true) rest = percent (fs.set f false) rest := by
  unfold percent
  rw [marked_set fs _ _ _ h]

theorem dollar_set (h : f.Idle rest (dollar (fs.set f false) rest).findings) :
    dollar (fs.set f true) rest = dollar (fs.set f false) rest := by
  by_cases hf : f = .dollarIsPc
  · subst hf
    have hclean := h.clean rfl
    unfold dollar at hclean ⊢
    split
    · exact marked_set fs _ _ _ h.absent
    next hdigit =>
      -- Without the feature a lone dollar sign is stray.
      rw [if_neg hdigit] at hclean
      exact absurd hclean (List.cons_ne_nil _ _)
  · have hpc : (fs.set f true).dollarIsPc = (fs.set f false).dollarIsPc :=
      fs.get_set_of_ne (Ne.symm hf)
    unfold dollar
    rw [marked_set fs _ _ _ h.absent, hpc]

end Numbers

/-! ### Literals -/

section Literals
variable (fs : Features) {f : Feature} {rest : List UInt8}

theorem strLiteral_set (h : f.Absent rest) :
    strLiteral (fs.set f true) rest = strLiteral (fs.set f false) rest := by
  unfold strLiteral
  simp only [quoted_set fs h]

theorem charLiteral_set (m : Charmap)
    (h : f.Idle rest (charLiteral (fs.set f false) m rest).findings) :
    charLiteral (fs.set f true) m rest = charLiteral (fs.set f false) m rest := by
  have hquoted := quoted_set fs h.absent Byte.singleQuote
  by_cases hf : f = .looseStringTerm
  · subst hf
    have hclean := h.clean rfl
    unfold charLiteral at hclean ⊢
    simp only [hquoted] at hclean ⊢
    split
    · rfl
    · rfl
    next hcontent =>
      -- Without the feature several characters are too many.
      rw [hcontent] at hclean
      exact absurd (List.append_eq_nil_iff.1 hclean).2 (List.cons_ne_nil _ _)
  · have hloose : (fs.set f true).looseStringTerm = (fs.set f false).looseStringTerm :=
      fs.get_set_of_ne (Ne.symm hf)
    unfold charLiteral
    simp only [hquoted, hloose]

end Literals

/-! ### Every rule -/

/-- A byte that begins nothing without an idle feature begins nothing with it. -/
theorem Invalid.set {c : Config} {f : Feature} {b : UInt8} {rest : List UInt8}
    (hinvalid : Invalid (c.set f false) b) (h : f.Idle (b :: rest) (Lexeme.stray b).findings) :
    Invalid (c.set f true) b where
  mark := hinvalid.mark
  blank := hinvalid.blank
  name := hinvalid.name
  digit := hinvalid.digit
  beginner := hinvalid.beginner
  joint := by
    intro hb
    have hne : Feature.lineCont ≠ f := by
      rintro rfl
      exact absurd (h.clean rfl) (List.cons_ne_nil _ _)
    exact (c.features.get_set_of_ne hne).trans (hinvalid.joint hb)

/-- **An idle feature makes no difference**: the lexeme is the same with it and without. -/
theorem read_set {c : Config} {m : Charmap} {f : Feature} {b : UInt8} {rest : List UInt8}
    (h : f.Idle (b :: rest) (read (c.set f false) m b rest).findings) :
    read (c.set f true) m b rest = read (c.set f false) m b rest := by
  have hrest : f.Absent rest := h.absent.mono (List.subset_cons_self b rest)
  have hrule := rule_read (c.set f false) m b
  generalize read (c.set f false) m b = rule at hrule h ⊢
  cases hrule with
  | localLabel hb =>
    have hmark : b = (c.set f true).localChar.byte := hb
    rw [read_of_rule (.localLabel hmark)]
    exact localLabel_set c hrest
  | blank hb => rw [read_of_rule (.blank hb)]
  | word hb =>
    rw [read_of_rule (.word hb)]
    exact word_set c b hrest
  | unmarked hb =>
    rw [read_of_rule (.unmarked hb)]
    exact unmarked_set c.features b hrest
  | lineEnd hb => rw [read_of_rule (.lineEnd hb)]
  | comment hb => rw [read_of_rule (.comment hb)]
  | joint hb hjoins =>
    have hne : Feature.lineCont ≠ f := by
      rintro rfl
      contradiction
    have hjoins : (c.set f true).features.lineCont = true :=
      (c.features.get_set_of_ne hne).trans hjoins
    rw [read_of_rule (.joint hb hjoins)]
  | dotted hb =>
    rw [read_of_rule (.dotted hb)]
    exact dotted_set c ⟨hrest, h.clean⟩
  | dollar hb =>
    rw [read_of_rule (.dollar hb)]
    exact dollar_set c.features ⟨hrest, h.clean⟩
  | percent hb =>
    rw [read_of_rule (.percent hb)]
    exact percent_set c.features hrest
  | strLiteral hb =>
    rw [read_of_rule (.strLiteral hb)]
    exact strLiteral_set c.features hrest
  | charLiteral hb =>
    rw [read_of_rule (.charLiteral hb)]
    exact charLiteral_set c.features m ⟨hrest, h.clean⟩
  | colon hb => rw [read_of_rule (.colon hb)]
  | pair hb => rw [read_of_rule (.pair hb)]
  | sign hb => rw [read_of_rule (.sign hb)]
  | stray hb => rw [read_of_rule (.stray (hb.set h))]

end Lexeme
end AsmScan
