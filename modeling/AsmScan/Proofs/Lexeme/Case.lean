import AsmScan.Proofs.Byte
import AsmScan.Proofs.Lexeme.Lexes

/-! Lexemes without case.

Two lexemes `Agree` if they are told apart by the case of letters at most: by the
strings that they keep, by the value of a character constant, and by what their
problems say. A text and its copy in capitals begin with lexemes that agree
(`agree_read`). Only the letter of an escape has a meaning that depends on its case,
so there must be no escapes. -/
namespace AsmScan

/-! ### What agrees -/

/-- Two attributes of a token that agree: the integers of a character constant need not be equal, and
strings need not in case. -/
inductive Attr.Agree (t : Token) : Attr → Attr → Prop where
  | none : Agree t .none .none
  | int (value : Int) : Agree t (.int value) (.int value)
  | char (value value' : Int) : t = .charConst → Agree t (.int value) (.int value')
  | str {text text' : ShortString} : text.toUpper = text'.toUpper → Agree t (.str text) (.str text')

theorem Attr.Agree.refl (t : Token) (attr : Attr) : Attr.Agree t attr attr := by
  cases attr with
  | none => exact .none
  | int value => exact .int value
  | str text => exact .str rfl

/-- Two meanings that agree. -/
inductive Meaning.Agree : Meaning → Meaning → Prop where
  | refl (meaning : Meaning) : Agree meaning meaning
  | token {t : Token} {attr attr' : Attr} :
      Attr.Agree t attr attr' → Agree (.token t attr) (.token t attr')

theorem Meaning.Agree.cases {a a' : Meaning} (h : a.Agree a') :
    a' = a ∨ ∃ t attr attr', a = .token t attr ∧ a' = .token t attr' ∧ Attr.Agree t attr attr' := by
  cases h with
  | refl => exact .inl rfl
  | token hattr => exact .inr ⟨_, _, _, rfl, rfl, hattr⟩

/-- Two findings of one kind in one place. -/
structure Finding.Agree (f f' : Finding) : Prop where
  offset : f.offset = f'.offset
  kind : f.problem.kind = f'.problem.kind

namespace Lexeme

structure Agree (l l' : Lexeme) : Prop where
  meaning : l.meaning.Agree l'.meaning
  size : l.size = l'.size
  findings : List.Forall₂ Finding.Agree l.findings l'.findings

theorem forall₂_refl (findings : List Finding) : List.Forall₂ Finding.Agree findings findings :=
  List.forall₂_same.2 fun _ _ => ⟨rfl, rfl⟩

theorem Agree.refl (l : Lexeme) : Agree l l := ⟨.refl _, rfl, forall₂_refl _⟩

theorem agree_of_eq {l l' : Lexeme} (h : l' = l) : Agree l l' := h ▸ .refl l

/-! ### Words -/

section Words
variable (c : Config) (rest : List UInt8)

theorem nameRun_toUpper (fs : Features) :
    nameRun fs (rest.map Byte.toUpper) = (nameRun fs rest).map Byte.toUpper := by
  apply Byte.takeWhile_toUpper
  intro b
  simp only [isNameByte, Byte.isNameStart_toUpper, Byte.isDigit_toUpper]
  rw [Byte.beq_toUpper _ rfl, Byte.beq_toUpper _ rfl]

theorem startsName_toUpper : startsName (rest.map Byte.toUpper) = startsName rest := by
  cases rest with
  | nil => rfl
  | cons b more => exact Byte.isNameStart_toUpper b

theorem toUpper_truncate (bytes : List UInt8) :
    (ShortString.truncate bytes).toUpper = .truncate (bytes.map Byte.toUpper) := by
  simp only [ShortString.truncate, ShortString.toUpper, List.map_take]

theorem toUpper_truncate_toUpper (bytes : List UInt8) :
    (ShortString.truncate (bytes.map Byte.toUpper)).toUpper =
      (ShortString.truncate bytes).toUpper := by
  rw [toUpper_truncate, toUpper_truncate, Byte.map_toUpper_toUpper]

theorem overlong_toUpper (name : List UInt8) : overlong (name.map Byte.toUpper) = overlong name := by
  simp only [overlong, List.length_map]

/-- A name agrees with the name in capitals. -/
theorem agree_named (t : Token) (b : UInt8) (more : List UInt8) :
    Agree (named t b more) (named t (Byte.toUpper b) (more.map Byte.toUpper)) := by
  refine ⟨.token (.str ?_), ?_, ?_⟩
  · exact (toUpper_truncate_toUpper (b :: more)).symm
  · rw [size_named, size_named, List.length_map]
  · show List.Forall₂ _ (overlong (b :: more)) (overlong ((b :: more).map Byte.toUpper))
    rw [overlong_toUpper]
    exact forall₂_refl _

theorem agree_localLabel : Agree (localLabel c rest) (localLabel c (rest.map Byte.toUpper)) := by
  have hmark : Byte.toUpper c.localChar.byte = c.localChar.byte := by
    cases c.localChar <;> rfl
  unfold localLabel
  rw [startsName_toUpper, nameRun_toUpper]
  split
  · have h := agree_named .identifier c.localChar.byte (nameRun c.features rest)
    rwa [hmark] at h
  · exact .refl _

theorem letter?_toUpper (b : UInt8) :
    letter? (Byte.toUpper b) (rest.map Byte.toUpper) = letter? b rest := by
  by_cases hcolon : rest.head? = some Byte.colon
  · obtain ⟨more, rfl⟩ := List.head?_eq_some_iff.1 hcolon
    rw [List.map_cons, show Byte.toUpper Byte.colon = Byte.colon from rfl, letter?_colon,
      letter?_colon b more]
    unfold letter?
    rw [Byte.toUpper_toUpper]
  · have hupper : (rest.map Byte.toUpper).head? ≠ some Byte.colon :=
      mt (Byte.head?_toUpper_iff _ rfl).1 hcolon
    rw [letter?_other _ hupper, letter?_other b hcolon, Byte.toUpper_toUpper]

theorem agree_word (b : UInt8) :
    Agree (word c b rest) (word c (Byte.toUpper b) (rest.map Byte.toUpper)) := by
  have hfolded : (ShortString.truncate (Byte.toUpper b :: (nameRun c.features rest).map
      Byte.toUpper)).toUpper = (ShortString.truncate (b :: nameRun c.features rest)).toUpper :=
    toUpper_truncate_toUpper (b :: nameRun c.features rest)
  unfold word
  dsimp only
  rw [nameRun_toUpper, hfolded, letter?_toUpper, List.isEmpty_map]
  split
  · cases letter? b rest with
    | none => exact agree_named ..
    | some l => exact .refl l
  · exact agree_named ..

theorem agree_dotted : Agree (dotted c rest) (dotted c (rest.map Byte.toUpper)) := by
  have hfolded : (ShortString.truncate (Byte.dot :: (nameRun c.features rest).map
      Byte.toUpper)).toUpper = (ShortString.truncate (Byte.dot :: nameRun c.features rest)).toUpper :=
    toUpper_truncate_toUpper (Byte.dot :: nameRun c.features rest)
  have hoverlong : overlong (Byte.dot :: (nameRun c.features rest).map Byte.toUpper) =
      overlong (Byte.dot :: nameRun c.features rest) :=
    overlong_toUpper (Byte.dot :: nameRun c.features rest)
  unfold dotted
  simp only [startsName_toUpper, nameRun_toUpper, hfolded, hoverlong, List.length_map]
  split
  · split
    · exact .refl _
    · split
      · exact agree_named .identifier Byte.dot _
      · -- The unknown word is named as it is written, so the texts of the problems differ.
        exact ⟨.refl _, rfl, List.rel_append (forall₂_refl _) (.cons ⟨rfl, rfl⟩ .nil)⟩
  · exact .refl _

end Words

/-! ### Numbers -/

section Numbers
variable (fs : Features) (rest : List UInt8)

theorem digitRun_toUpper :
    digitRun fs (rest.map Byte.toUpper) = (digitRun fs rest).map Byte.toUpper := by
  apply Byte.takeWhile_toUpper
  intro b
  rw [isNumberByte, isNumberByte, Byte.digitValue?_toUpper, Byte.beq_toUpper _ rfl]

theorem eval_toUpper (base : Base) (run : List UInt8) :
    Numeral.eval base (run.map Byte.toUpper) = Numeral.eval base run := by
  have hfilter : (run.map Byte.toUpper).filter (· != Byte.underscore) =
      (run.filter (· != Byte.underscore)).map Byte.toUpper := by
    rw [List.filter_map]
    congr 2
    funext b
    simp only [Function.comp_apply, bne, Byte.beq_toUpper Byte.underscore rfl]
  have hdigit : Numeral.digit? base ∘ Byte.toUpper = Numeral.digit? base := by
    funext b
    simp only [Function.comp_apply, Numeral.digit?, Byte.digitValue?_toUpper]
  unfold Numeral.eval
  rw [hfilter, List.mapM_map, hdigit]

theorem number_toUpper (base : Base) (run : List UInt8) (size : Nat) (h : 0 < size) :
    number base (run.map Byte.toUpper) size h = number base run size h := by
  unfold number
  rw [eval_toUpper]

theorem marked_toUpper (base : Base) (marker : Nat) (h : 0 < marker) :
    marked fs base marker (rest.map Byte.toUpper) h = marked fs base marker rest h := by
  simp only [marked, digitRun_toUpper, List.length_map, number_toUpper]

theorem dollar_toUpper : dollar fs (rest.map Byte.toUpper) = dollar fs rest := by
  have hhead : (rest.map Byte.toUpper).head?.bind digitValue? = rest.head?.bind digitValue? := by
    cases rest with
    | nil => rfl
    | cons b more => exact Byte.digitValue?_toUpper b
  unfold dollar
  rw [hhead, marked_toUpper]

theorem percent_toUpper : percent fs (rest.map Byte.toUpper) = percent fs rest := by
  unfold percent
  simp only [Byte.head?_toUpper_iff Byte.zero rfl, Byte.head?_toUpper_iff Byte.one rfl,
    marked_toUpper]

theorem unmarked_toUpper {b : UInt8} (hb : Byte.toUpper b = b) :
    unmarked fs b (rest.map Byte.toUpper) = unmarked fs b rest := by
  have hnumber (base : Base) (run : List UInt8) (size : Nat) (h : 0 < size) :
      number base (b :: run.map Byte.toUpper) size h = number base (b :: run) size h := by
    have h := number_toUpper base (b :: run) size h
    rwa [List.map_cons, hb] at h
  have hzero (run : List UInt8) :
      b :: run.map Byte.toUpper = [Byte.zero] ↔ b :: run = [Byte.zero] := by
    simp only [List.cons.injEq, List.map_eq_nil_iff]
  have hmark (after : List UInt8) :
      (after.map Byte.toUpper).head?.map Byte.toUpper = after.head?.map Byte.toUpper := by
    rw [← List.head?_map, ← List.head?_map, Byte.map_toUpper_toUpper]
  unfold unmarked
  simp only [digitRun_toUpper, List.length_map, ← List.map_drop, hmark, hzero, hnumber,
    ← List.map_tail, marked_toUpper]

end Numbers

/-! ### Operators and ends of lines -/

section Operators
variable (rest : List UInt8)

theorem colon_toUpper : colon (rest.map Byte.toUpper) = colon rest := by
  have hrun (sign : UInt8) (hsign : Byte.isLetter sign = false) (bytes : List UInt8) :
      ((bytes.map Byte.toUpper).takeWhile (· == sign)).length =
        (bytes.takeWhile (· == sign)).length := by
    rw [Byte.takeWhile_toUpper fun _ => Byte.beq_toUpper sign hsign, List.length_map]
  cases rest with
  | nil => rfl
  | cons b more =>
    rw [List.map_cons]
    by_cases hb : b ∈ [Byte.colon, Byte.equal, Byte.plus, Byte.minus]
    · simp only [List.mem_cons, List.not_mem_nil, or_false] at hb
      rcases hb with rfl | rfl | rfl | rfl
      · rfl
      · rfl
      · rw [show Byte.toUpper Byte.plus = Byte.plus from rfl, colon_plus, colon_plus]
        simp only [hrun Byte.plus rfl]
      · rw [show Byte.toUpper Byte.minus = Byte.minus from rfl, colon_minus, colon_minus]
        simp only [hrun Byte.minus rfl]
    · have hupper : Byte.toUpper b ∉ [Byte.colon, Byte.equal, Byte.plus, Byte.minus] := by
        simpa only [List.mem_cons, List.not_mem_nil, or_false, Byte.toUpper_eq_iff Byte.colon rfl,
          Byte.toUpper_eq_iff Byte.equal rfl, Byte.toUpper_eq_iff Byte.plus rfl,
          Byte.toUpper_eq_iff Byte.minus rfl] using hb
      rw [colon_other hb, colon_other hupper]

theorem lookup_toUpper {seconds : List (UInt8 × Token)}
    (h : ∀ s ∈ seconds, Byte.isLetter s.1 = false) (b : UInt8) :
    seconds.lookup (Byte.toUpper b) = seconds.lookup b := by
  induction seconds with
  | nil => rfl
  | cons s more ih =>
    obtain ⟨hs, hmore⟩ := List.forall_mem_cons.1 h
    rw [List.lookup_cons, List.lookup_cons, Byte.beq_toUpper s.1 hs, ih hmore]

theorem pair_toUpper {b : UInt8} {single : Token} {seconds : List (UInt8 × Token)}
    (h : (b, single, seconds) ∈ doubled) :
    pair single seconds (rest.map Byte.toUpper) = pair single seconds rest := by
  have htable : ∀ d ∈ doubled, ∀ s ∈ d.2.2, Byte.isLetter s.1 = false := by decide
  have hhead : (rest.map Byte.toUpper).head?.bind (seconds.lookup ·) =
      rest.head?.bind (seconds.lookup ·) := by
    cases rest with
    | nil => rfl
    | cons a more => exact lookup_toUpper (htable _ h) a
  unfold pair
  rw [hhead]

theorem comment_toUpper : comment (rest.map Byte.toUpper) = comment rest := by
  have hrun : (rest.map Byte.toUpper).takeWhile (· != Byte.lineFeed) =
      (rest.takeWhile (· != Byte.lineFeed)).map Byte.toUpper :=
    Byte.takeWhile_toUpper (fun b => congrArg (!·) (Byte.beq_toUpper _ rfl)) rest
  simp only [comment, hrun, List.length_map]

/-- A backslash joins lines only before a line feed or a carriage return. -/
theorem joint_other {b : UInt8} (hfeed : b ≠ Byte.lineFeed) (hreturn : b ≠ Byte.carriageReturn)
    (more : List UInt8) :
    joint (b :: more) =
      {meaning := .blank, size := 1, findings := [⟨0, .strayByte Byte.backslash⟩]} := by
  unfold joint
  split
  next heq => exact absurd (List.cons.inj heq).1 hfeed
  next heq => exact absurd (List.cons.inj heq).1 hreturn
  next heq => exact absurd (List.cons.inj heq).1 hreturn
  · rfl

theorem joint_return {b : UInt8} (hfeed : b ≠ Byte.lineFeed) (more : List UInt8) :
    joint (Byte.carriageReturn :: b :: more) = blank 2 := by
  unfold joint
  split
  next heq => cases (List.cons.inj heq).1
  next heq => exact absurd (List.cons.inj (List.cons.inj heq).2).1 hfeed
  · rfl
  next h => exact absurd rfl (h _)

theorem joint_toUpper : joint (rest.map Byte.toUpper) = joint rest := by
  have hne {sign b : UInt8} (hsign : Byte.isLetter sign = false) (h : b ≠ sign) :
      Byte.toUpper b ≠ sign :=
    mt (Byte.toUpper_eq_iff sign hsign).1 h
  match rest with
  | [] => rfl
  | b :: more =>
    by_cases hfeed : b = Byte.lineFeed
    · subst hfeed
      rfl
    by_cases hreturn : b = Byte.carriageReturn
    · subst hreturn
      match more with
      | [] => rfl
      | a :: after =>
        by_cases ha : a = Byte.lineFeed
        · subst ha
          rfl
        · exact (joint_return (hne rfl ha) _).trans (joint_return ha _).symm
    · exact (joint_other (hne rfl hfeed) (hne rfl hreturn) _).trans
        (joint_other hfeed hreturn _).symm

end Operators

/-! ### Literals without escapes -/

section Quotes
variable {quote : UInt8} {escapes : Bool} {rest : List UInt8}

/-- A byte that a literal without escapes goes past. -/
def isInner (quote b : UInt8) : Bool := !(Quoted.endsLine b || b == quote)

/-- Where nothing is escaped, every byte between the quotes stands for itself. -/
def Unescaped (escapes : Bool) (rest : List UInt8) : Prop :=
  escapes = false ∨ Byte.backslash ∉ rest

theorem Unescaped.toUpper (h : Unescaped escapes rest) :
    Unescaped escapes (rest.map Byte.toUpper) :=
  h.imp_right (mt (Byte.mem_toUpper_iff _ rfl).1)

theorem Unescaped.tail {b : UInt8} (h : Unescaped escapes (b :: rest)) : Unescaped escapes rest :=
  h.imp_right (mt (List.mem_cons_of_mem b))

theorem Unescaped.drop (h : Unescaped escapes rest) (n : Nat) : Unescaped escapes (rest.drop n) :=
  h.imp_right (mt List.mem_of_mem_drop)

theorem body_unescaped (h : Unescaped escapes rest) :
    Quoted.body quote escapes false rest = rest.takeWhile (isInner quote) := by
  induction rest with
  | nil => rfl
  | cons b more ih =>
    have hhides : (escapes && b == Byte.backslash && !false) = false := by
      rcases h with rfl | h
      · rfl
      · have hb : b ≠ Byte.backslash := fun hb => h (hb ▸ List.mem_cons_self ..)
        simp [hb]
    rw [Quoted.body, hhides, ih h.tail, List.takeWhile_cons, isInner, Bool.not_false, Bool.and_true]
    cases Quoted.endsLine b || b == quote <;> rfl

theorem ofBytes_unescaped {bytes : List UInt8} (h : Byte.backslash ∉ bytes) :
    Piece.ofBytes bytes = bytes.map .byte := by
  induction bytes with
  | nil => simp [Piece.ofBytes]
  | cons b more ih =>
    rw [List.mem_cons, not_or] at h
    have hread : Piece.read b more = .byte b := if_neg (Ne.symm h.1)
    rw [Piece.ofBytes, hread]
    exact congrArg (.byte b :: ·) (ih h.2)

theorem pieces_unescaped (h : Unescaped escapes rest) :
    (Quoted.read quote escapes rest).pieces = (rest.takeWhile (isInner quote)).map .byte := by
  unfold Quoted.read
  dsimp only
  rw [body_unescaped h]
  split
  next hescapes =>
    rcases h with rfl | h
    · contradiction
    · exact ofBytes_unescaped (mt (List.takeWhile_prefix _).mem h)
  · rfl

theorem content_unescaped (h : Unescaped escapes rest) :
    (Quoted.read quote escapes rest).content = rest.takeWhile (isInner quote) := by
  rw [Quoted.content, pieces_unescaped h, List.flatMap_map]
  exact List.flatMap_singleton' _

theorem findingsFrom_unescaped (offset : Nat) (bytes : List UInt8) :
    Quoted.findingsFrom offset (bytes.map .byte) = [] := by
  induction bytes generalizing offset with
  | nil => rfl
  | cons b more ih => exact ih (offset + 1)

/-- A literal in capitals: as long, with as many problems. -/
theorem quoted_toUpper (quote : UInt8) (hquote : Byte.isLetter quote = false)
    (h : Unescaped escapes rest) :
    let q := Quoted.read quote escapes rest
    let q' := Quoted.read quote escapes (rest.map Byte.toUpper)
    q'.content = q.content.map Byte.toUpper ∧ q'.size = q.size ∧ q'.closed = q.closed ∧
      q'.findings = q.findings := by
  intro q q'
  have hrun : (rest.map Byte.toUpper).takeWhile (isInner quote) =
      (rest.takeWhile (isInner quote)).map Byte.toUpper := by
    apply Byte.takeWhile_toUpper
    intro b
    simp only [isInner, Quoted.endsLine]
    rw [Byte.beq_toUpper quote hquote, Byte.beq_toUpper _ rfl, Byte.beq_toUpper _ rfl]
  have hcontent : q'.content = q.content.map Byte.toUpper := by
    rw [content_unescaped h, content_unescaped h.toUpper, hrun]
  have hbody : Quoted.body quote escapes false (rest.map Byte.toUpper) =
      (Quoted.body quote escapes false rest).map Byte.toUpper := by
    rw [body_unescaped h, body_unescaped h.toUpper, hrun]
  have hclosed : q'.closed = q.closed := by
    simp only [q, q', Quoted.read, hbody, List.length_map, ← List.map_drop,
      Byte.head?_toUpper_iff quote hquote]
  refine ⟨hcontent, ?_, hclosed, ?_⟩
  · simp only [q, q', Quoted.read, hbody, List.length_map, ← List.map_drop,
      Byte.head?_toUpper_iff quote hquote]
  · simp only [Quoted.findings, hcontent, hclosed, List.length_map]
    rw [pieces_unescaped h, pieces_unescaped h.toUpper, findingsFrom_unescaped,
      findingsFrom_unescaped]

variable (fs : Features)

theorem agree_strLiteral (h : Unescaped fs.stringEscapes rest) :
    Agree (strLiteral fs rest) (strLiteral fs (rest.map Byte.toUpper)) := by
  obtain ⟨hcontent, hsize, -, hfindings⟩ := quoted_toUpper Byte.doubleQuote rfl h
  unfold strLiteral
  simp only [hcontent, hsize, hfindings]
  exact ⟨.token (.str (toUpper_truncate_toUpper _).symm), rfl, forall₂_refl _⟩

theorem agree_charLiteral (m : Charmap) (h : Unescaped fs.stringEscapes rest) :
    Agree (charLiteral fs m rest) (charLiteral fs m (rest.map Byte.toUpper)) := by
  obtain ⟨hcontent, hsize, hclosed, hfindings⟩ := quoted_toUpper Byte.singleQuote rfl h
  unfold charLiteral
  simp only [hcontent, hsize, hclosed, hfindings]
  cases (Quoted.read Byte.singleQuote fs.stringEscapes rest).content with
  | nil => exact .refl _
  | cons b more =>
    -- The character map need not treat a letter and its capital alike.
    cases more with
    | nil => exact ⟨.token (.char _ _ rfl), rfl, forall₂_refl _⟩
    | cons a more =>
      cases fs.looseStringTerm with
      | false => exact ⟨.token (.char _ _ rfl), rfl, forall₂_refl _⟩
      | true =>
        exact ⟨.token (.str (toUpper_truncate_toUpper (b :: a :: more)).symm), rfl, forall₂_refl _⟩

end Quotes

/-! ### Every rule -/

/-- **A text and its copy in capitals begin alike**: with lexemes that agree. -/
theorem agree_read (c : Config) (m : Charmap) (b : UInt8) {rest : List UInt8}
    (h : Unescaped c.features.stringEscapes rest) :
    Agree (read c m b rest) (read c m (Byte.toUpper b) (rest.map Byte.toUpper)) := by
  by_cases hname : Byte.isNameStart b = true
  · rw [read_word c m rest hname,
      read_word c m _ ((Byte.isNameStart_toUpper b).trans hname)]
    exact agree_word c rest b
  -- A byte that begins no word is its own capital, and picks the rule it picked before.
  have hb : Byte.toUpper b = b := by
    apply Byte.toUpper_of_isLower_false
    simp only [Byte.isNameStart, Bool.or_eq_true, not_or, Bool.not_eq_true] at hname
    exact hname.1.2
  rw [hb]
  have hrule := rule_read c m b
  generalize read c m b = rule at hrule
  cases hrule with
  | localLabel => exact agree_localLabel c rest
  | word hword => exact absurd hword hname
  | unmarked => exact agree_of_eq (unmarked_toUpper c.features rest hb)
  | comment => exact agree_of_eq (comment_toUpper rest)
  | joint => exact agree_of_eq (joint_toUpper rest)
  | dotted => exact agree_dotted c rest
  | dollar => exact agree_of_eq (dollar_toUpper c.features rest)
  | percent => exact agree_of_eq (percent_toUpper c.features rest)
  | strLiteral => exact agree_strLiteral c.features h
  | charLiteral => exact agree_charLiteral c.features m h
  | colon => exact agree_of_eq (colon_toUpper rest)
  | pair hd => exact agree_of_eq (pair_toUpper rest hd)
  | blank | lineEnd | sign | stray => exact .refl _

end AsmScan.Lexeme
