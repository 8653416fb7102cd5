import AsmScan.Lexeme.Read
import AsmScan.Proofs.Keyword
import AsmScan.Proofs.Lexeme.Alphabet

/-! How a lexeme begins.

The first byte of a lexeme picks the rule by which the rest of it is read, and
nothing but that byte and the configuration has a say in it (`rule_read`). It picks
one rule only, so a rule that fits is the one (`read_of_rule`). What holds of every
lexeme is shown rule by rule: for one, none reaches past the text that it is read
from (`size_read_le`). -/
namespace AsmScan.Lexeme

/-- The operators and marks of a single byte that begin no longer spelling. -/
def signs : List (UInt8 × Token) :=
  [(Byte.comma, .comma), (Byte.hash, .hash), (Byte.equal, .equal), (Byte.plus, .plus),
   (Byte.minus, .minus), (Byte.star, .times), (Byte.slash, .divide), (Byte.bang, .modulo),
   (Byte.caret, .bitXor), (Byte.tilde, .bitNot), (Byte.leftParen, .leftParen),
   (Byte.rightParen, .rightParen), (Byte.leftBracket, .leftBracket),
   (Byte.rightBracket, .rightBracket)]

/-- The signs that begin an operator of one sign or two: the token of the sign alone, and the second
signs with the tokens of both. -/
def doubled : List (UInt8 × Token × List (UInt8 × Token)) :=
  [(Byte.less, .less,
      [(Byte.equal, .lessEqual), (Byte.greater, .notEqual), (Byte.less, .shiftLeft)]),
   (Byte.greater, .greater, [(Byte.equal, .greaterEqual), (Byte.greater, .shiftRight)]),
   (Byte.ampersand, .bitAnd, [(Byte.ampersand, .boolAnd)]),
   (Byte.pipe, .bitOr, [(Byte.pipe, .boolOr)])]

/-- The bytes that begin something, blanks, names and decimal numbers apart. -/
def beginners : List UInt8 :=
  [Byte.lineFeed, Byte.semicolon, Byte.dot, Byte.dollar, Byte.percent, Byte.doubleQuote,
   Byte.singleQuote, Byte.colon] ++
  doubled.map Prod.fst ++ signs.map Prod.fst

/-- A byte that begins nothing. A backslash does so unless lines can be joined. -/
structure Invalid (c : Config) (b : UInt8) : Prop where
  mark : b ≠ c.localChar.byte
  blank : b ∉ Byte.blanks
  name : b ∉ Byte.letters ∧ b ≠ Byte.underscore
  digit : b ∉ Byte.digits
  beginner : b ∉ beginners
  joint : b = Byte.backslash → c.features.lineCont = false

theorem invalid_iff {c : Config} {b : UInt8} :
    Invalid c b ↔ b ≠ c.localChar.byte ∧ Byte.isBlank b = false ∧ Byte.isNameStart b = false ∧
      Byte.isDigit b = false ∧ b ∉ beginners ∧ (b = Byte.backslash → c.features.lineCont = false) := by
  simp only [← Bool.not_eq_true, Byte.isBlank_iff, Byte.isNameStart_iff, Byte.isDigit_iff, not_or]
  exact ⟨fun h => ⟨h.mark, h.blank, h.name, h.digit, h.beginner, by simpa using h.joint⟩,
    fun ⟨hmark, hblank, hname, hdigit, hbeginner, hjoint⟩ =>
      ⟨hmark, hblank, hname, hdigit, hbeginner, by simpa using hjoint⟩⟩

/-- The rule that a byte picks, as a function of the bytes after it. -/
inductive Rule (c : Config) (m : Charmap) (b : UInt8) : (List UInt8 → Lexeme) → Prop where
  | localLabel : b = c.localChar.byte → Rule c m b (localLabel c)
  | blank : Byte.isBlank b = true → Rule c m b fun _ => .blank 1
  | word : Byte.isNameStart b = true → Rule c m b (word c b)
  | unmarked : Byte.isDigit b = true → Rule c m b (unmarked c.features b)
  | lineEnd : b = Byte.lineFeed → Rule c m b fun _ => {meaning := .lineEnd, size := 1}
  | comment : b = Byte.semicolon → Rule c m b comment
  | joint : b = Byte.backslash → c.features.lineCont = true → Rule c m b joint
  | dotted : b = Byte.dot → Rule c m b (dotted c)
  | dollar : b = Byte.dollar → Rule c m b (dollar c.features)
  | percent : b = Byte.percent → Rule c m b (percent c.features)
  | strLiteral : b = Byte.doubleQuote → Rule c m b (strLiteral c.features)
  | charLiteral : b = Byte.singleQuote → Rule c m b (charLiteral c.features m)
  | colon : b = Byte.colon → Rule c m b colon
  | pair {single : Token} {seconds : List (UInt8 × Token)} :
      (b, single, seconds) ∈ doubled → Rule c m b (pair single seconds)
  | sign {t : Token} : (b, t) ∈ signs → Rule c m b fun _ => plain t 1
  | stray : Invalid c b → Rule c m b fun _ => stray b

/-- A byte that cannot mark local labels is not the mark. -/
theorem ne_mark (c : Config) {b : UInt8} (h : b ∉ LocalChar.all.map LocalChar.byte) :
    b ≠ c.localChar.byte := by
  rintro rfl
  apply h
  cases c.localChar <;> decide

/-- A byte that no other rule takes begins an operator or nothing. -/
theorem rule_operator (c : Config) (m : Charmap) (b : UInt8) (hmark : b ≠ c.localChar.byte)
    (hblank : Byte.isBlank b = false) (hname : Byte.isNameStart b = false)
    (hdigit : Byte.isDigit b = false)
    (hother : b ∉ [Byte.lineFeed, Byte.semicolon, Byte.backslash, Byte.dot, Byte.dollar,
      Byte.percent, Byte.doubleQuote, Byte.singleQuote]) :
    Rule c m b fun rest => (operator? b rest).getD (Lexeme.stray b) := by
  unfold operator?
  split
  case h_1 => exact .colon rfl
  case h_2 => exact .pair (by decide)
  case h_3 => exact .pair (by decide)
  case h_4 => exact .pair (by decide)
  case h_5 => exact .pair (by decide)
  case h_20 =>
    refine .stray (invalid_iff.2 ⟨hmark, hblank, hname, hdigit, ?_, fun h => absurd h (by simp_all)⟩)
    simp only [beginners, doubled, signs, List.map_cons, List.map_nil]
    simp_all
  all_goals exact .sign (by decide)

/-- **Every byte picks a rule**, and the lexeme that it begins is read by that rule. -/
theorem rule_read (c : Config) (m : Charmap) (b : UInt8) : Rule c m b (read c m b) := by
  by_cases hmark : b = c.localChar.byte
  · have : read c m b = localLabel c := funext fun rest => if_pos hmark
    exact this ▸ .localLabel hmark
  unfold read
  simp only [hmark, if_false]
  split
  next hblank => exact .blank hblank
  next hblank =>
  split
  next hname => exact .word hname
  next hname =>
  split
  next hdigit => exact .unmarked hdigit
  next hdigit =>
  split
  · exact .lineEnd rfl
  · exact .comment rfl
  · split
    next hc => exact .joint rfl hc
    next hc =>
      exact .stray (invalid_iff.2 ⟨hmark, rfl, rfl, rfl, by decide, fun _ => by simpa using hc⟩)
  · exact .dotted rfl
  · exact .dollar rfl
  · exact .percent rfl
  · exact .strLiteral rfl
  · exact .charLiteral rfl
  · exact rule_operator c m b hmark (by simpa using hblank) (by simpa using hname)
      (by simpa using hdigit) (by simp_all)

/-! ### One byte, one rule -/

/-- A byte that begins a word is no blank. -/
theorem isBlank_of_isNameStart {b : UInt8} (h : Byte.isNameStart b = true) :
    Byte.isBlank b = false := by
  unfold Byte.isNameStart Byte.isUpper Byte.isLower at h
  unfold Byte.isBlank
  grind

/-- A digit is no blank and begins no word. -/
theorem isBlank_isNameStart_of_isDigit {b : UInt8} (h : Byte.isDigit b = true) :
    Byte.isBlank b = false ∧ Byte.isNameStart b = false := by
  unfold Byte.isDigit at h
  unfold Byte.isBlank Byte.isNameStart Byte.isUpper Byte.isLower
  grind

/-- Blanks, words and numbers begin with no byte that can mark local labels. -/
theorem ne_mark_of_class (c : Config) {b : UInt8}
    (h : Byte.isBlank b = true ∨ Byte.isNameStart b = true ∨ Byte.isDigit b = true) :
    b ≠ c.localChar.byte := by
  rintro rfl
  cases hmark : c.localChar <;> rw [hmark] at h <;> revert h <;> decide

theorem operator?_of_invalid {c : Config} {b : UInt8} (h : Invalid c b) (rest : List UInt8) :
    operator? b rest = none := by
  have hbeginner := h.beginner
  unfold operator?
  split
  case h_20 => rfl
  all_goals exact absurd (by decide) hbeginner

/-- **A byte picks no other rule** than the one by which its lexeme is read. -/
theorem read_of_rule {c : Config} {m : Charmap} {b : UInt8} {rule : List UInt8 → Lexeme}
    (h : Rule c m b rule) : read c m b = rule := by
  funext rest
  cases h with
  | localLabel hb => exact if_pos hb
  | blank hb =>
    unfold read
    rw [if_neg (ne_mark_of_class c (.inl hb)), if_pos hb]
  | word hb =>
    have hblank : ¬ Byte.isBlank b = true := by simp [isBlank_of_isNameStart hb]
    unfold read
    rw [if_neg (ne_mark_of_class c (.inr (.inl hb))), if_neg hblank, if_pos hb]
  | unmarked hb =>
    obtain ⟨hblank, hname⟩ := isBlank_isNameStart_of_isDigit hb
    unfold read
    rw [if_neg (ne_mark_of_class c (.inr (.inr hb))), if_neg (by simp [hblank]),
      if_neg (by simp [hname]), if_pos hb]
  | joint hb hjoins =>
    subst hb
    exact (if_neg (ne_mark c (by decide))).trans (if_pos hjoins)
  | pair hb =>
    simp only [doubled, List.mem_cons, Prod.mk.injEq, List.not_mem_nil, or_false] at hb
    rcases hb with ⟨rfl, rfl, rfl⟩ | ⟨rfl, rfl, rfl⟩ | ⟨rfl, rfl, rfl⟩ | ⟨rfl, rfl, rfl⟩ <;>
      exact if_neg (ne_mark c (by decide))
  | sign hb =>
    -- None of the signs can mark local labels, and each is its own case of `operator?`.
    simp only [signs, List.mem_cons, Prod.mk.injEq, List.not_mem_nil, or_false] at hb
    rcases hb with ⟨rfl, rfl⟩ | ⟨rfl, rfl⟩ | ⟨rfl, rfl⟩ | ⟨rfl, rfl⟩ | ⟨rfl, rfl⟩ | ⟨rfl, rfl⟩ |
      ⟨rfl, rfl⟩ | ⟨rfl, rfl⟩ | ⟨rfl, rfl⟩ | ⟨rfl, rfl⟩ | ⟨rfl, rfl⟩ | ⟨rfl, rfl⟩ | ⟨rfl, rfl⟩ |
      ⟨rfl, rfl⟩ <;>
      exact if_neg (ne_mark c (by decide))
  | stray hb =>
    obtain ⟨hmark, hblank, hname, hdigit, hbeginner, hjoint⟩ := invalid_iff.1 hb
    unfold read
    rw [if_neg hmark, if_neg (by simp [hblank]), if_neg (by simp [hname]), if_neg (by simp [hdigit])]
    split
    case h_3 => exact if_neg (by simp [hjoint rfl])
    case h_9 =>
      rw [operator?_of_invalid hb]
      rfl
    all_goals exact absurd (by decide) hbeginner
  | lineEnd hb | comment hb | dotted hb | dollar hb | percent hb | strLiteral hb | charLiteral hb
  | colon hb =>
    subst hb
    exact if_neg (ne_mark c (by decide))

/-! ### Sizes -/

section Sizes
variable (c : Config) (m : Charmap) (fs : Features) (rest : List UInt8)

theorem length_nameRun_le : (nameRun fs rest).length ≤ rest.length :=
  (List.takeWhile_prefix _).length_le

theorem length_digitRun_le : (digitRun fs rest).length ≤ rest.length :=
  (List.takeWhile_prefix _).length_le

theorem length_body_le (quote : UInt8) (escapes hidden : Bool) (rest : List UInt8) :
    (Quoted.body quote escapes hidden rest).length ≤ rest.length := by
  induction rest generalizing hidden with
  | nil => exact Nat.le_refl 0
  | cons b rest ih =>
    rw [Quoted.body]
    split
    · exact Nat.zero_le _
    · exact Nat.succ_le_succ (ih _)

@[simp] theorem size_number (base : Base) (run : List UInt8) (size : Nat) (h : 0 < size) :
    (number base run size h).size = size := by
  unfold number
  split <;> rfl

@[simp] theorem size_named (t : Token) (b : UInt8) (more : List UInt8) :
    (named t b more).size = 1 + more.length := rfl

theorem size_localLabel_le : (localLabel c rest).size ≤ 1 + rest.length := by
  unfold localLabel
  split
  · exact Nat.add_le_add_left (length_nameRun_le ..) 1
  · exact Nat.le_add_right 1 _

theorem size_letter?_le {b : UInt8} {l : Lexeme} (h : letter? b rest = some l) :
    l.size ≤ 1 + rest.length := by
  unfold letter? at h
  split at h
  · cases h
    simp only [plain, List.length_cons]
    omega
  · obtain ⟨t, -, rfl⟩ := Option.map_eq_some_iff.1 h
    simp [plain]

theorem size_word_le (b : UInt8) : (word c b rest).size ≤ 1 + rest.length := by
  have hwhole := Nat.add_le_add_left (length_nameRun_le c.features rest) 1
  unfold word
  dsimp only
  split
  · cases hl : letter? b rest with
    | none => exact hwhole
    | some l => exact size_letter?_le rest hl
  · exact hwhole

theorem size_dotted_le : (dotted c rest).size ≤ 1 + rest.length := by
  have hname := Nat.add_le_add_left (length_nameRun_le c.features rest) 1
  unfold dotted
  split
  · dsimp only
    split
    · exact hname
    · split <;> exact hname
  · exact Nat.le_add_right 1 _

theorem size_marked_le (base : Base) (marker : Nat) (h : 0 < marker) :
    (marked fs base marker rest h).size ≤ marker + rest.length := by
  simp only [marked, size_number]
  exact Nat.add_le_add_left (length_digitRun_le ..) marker

/-- What stands after a run of digits is as much shorter as the run is long. -/
theorem length_after_digitRun :
    (rest.drop (digitRun fs rest).length).length + (digitRun fs rest).length = rest.length := by
  have := length_digitRun_le fs rest
  rw [List.length_drop]
  omega

theorem length_pos_of_head? {bytes : List UInt8} {b : UInt8} (h : bytes.head? = some b) :
    0 < bytes.length := by
  cases bytes with
  | nil => contradiction
  | cons => exact Nat.succ_pos _

theorem size_unmarked_le (b : UInt8) : (unmarked fs b rest).size ≤ 1 + rest.length := by
  have hafter := length_after_digitRun fs rest
  unfold unmarked
  dsimp only
  split
  next hmark =>
    obtain ⟨mark, hmark, -⟩ := Option.map_eq_some_iff.1 hmark
    have := length_pos_of_head? hmark
    simp only [size_number]
    omega
  split
  next hmark =>
    obtain ⟨mark, hmark, -⟩ := Option.map_eq_some_iff.1 hmark.2
    have := length_pos_of_head? hmark
    have := size_marked_le fs (rest.drop (digitRun fs rest).length).tail .hexadecimal 2 (by omega)
    rw [List.length_tail] at this
    omega
  split
  next hmark =>
    obtain ⟨mark, hmark, -⟩ := Option.map_eq_some_iff.1 hmark.2
    have := length_pos_of_head? hmark
    have := size_marked_le fs (rest.drop (digitRun fs rest).length).tail .octal 2 (by omega)
    rw [List.length_tail] at this
    omega
  · simp only [size_number]
    omega

theorem size_dollar_le : (dollar fs rest).size ≤ 1 + rest.length := by
  unfold dollar
  split
  · exact size_marked_le ..
  · split <;> exact Nat.le_add_right 1 _

theorem size_percent_le : (percent fs rest).size ≤ 1 + rest.length := by
  unfold percent
  split
  · exact size_marked_le ..
  · exact Nat.le_add_right 1 _

theorem size_comment_le : (comment rest).size ≤ 1 + rest.length :=
  Nat.add_le_add_left (List.takeWhile_prefix _).length_le 1

theorem size_joint_le : (joint rest).size ≤ 1 + rest.length := by
  unfold joint
  split <;> simp only [blank, List.length_cons] <;> omega

theorem size_quoted_le (quote : UInt8) (escapes : Bool) :
    (Quoted.read quote escapes rest).size ≤ rest.length := by
  have hbody := length_body_le quote escapes false rest
  unfold Quoted.read
  dsimp only
  split
  next hclosed =>
    have := length_pos_of_head? hclosed
    rw [List.length_drop] at this
    omega
  · exact hbody

theorem size_strLiteral_le : (strLiteral fs rest).size ≤ 1 + rest.length :=
  Nat.add_le_add_left (size_quoted_le ..) 1

theorem size_charLiteral_le : (charLiteral fs m rest).size ≤ 1 + rest.length := by
  have h := Nat.add_le_add_left (size_quoted_le rest Byte.singleQuote fs.stringEscapes) 1
  unfold charLiteral
  dsimp only
  split
  · exact h
  · exact h
  · split <;> exact h

theorem size_colon_le : (colon rest).size ≤ 1 + rest.length := by
  unfold colon
  split
  case h_3 more =>
    have := (List.takeWhile_prefix (l := more) (· == Byte.plus)).length_le
    simp only [List.length_cons]
    omega
  case h_4 more =>
    have := (List.takeWhile_prefix (l := more) (· == Byte.minus)).length_le
    simp only [List.length_cons]
    omega
  all_goals simp only [plain, List.length_cons]; omega

theorem length_pos_of_head?_bind {α : Type} {f : UInt8 → Option α} {a : α}
    (h : rest.head?.bind f = some a) : 0 < rest.length := by
  obtain ⟨b, hb, -⟩ := Option.bind_eq_some_iff.1 h
  exact length_pos_of_head? hb

theorem size_pair_le (single : Token) (seconds : List (UInt8 × Token)) :
    (pair single seconds rest).size ≤ 1 + rest.length := by
  unfold pair
  split
  next h =>
    have := length_pos_of_head?_bind rest h
    simp only [plain]
    omega
  · exact Nat.le_add_right 1 _

end Sizes

/-- **A lexeme reaches no further than the text**: it takes no byte that is not there. -/
theorem size_read_le (c : Config) (m : Charmap) (b : UInt8) (rest : List UInt8) :
    (read c m b rest).size ≤ 1 + rest.length := by
  have h := rule_read c m b
  generalize read c m b = rule at h
  cases h with
  | localLabel => exact size_localLabel_le c rest
  | word => exact size_word_le c rest b
  | unmarked => exact size_unmarked_le c.features rest b
  | comment => exact size_comment_le rest
  | joint => exact size_joint_le rest
  | dotted => exact size_dotted_le c rest
  | dollar => exact size_dollar_le c.features rest
  | percent => exact size_percent_le c.features rest
  | strLiteral => exact size_strLiteral_le c.features rest
  | charLiteral => exact size_charLiteral_le m c.features rest
  | colon => exact size_colon_le rest
  | pair => exact size_pair_le rest ..
  | blank | lineEnd | sign | stray => exact Nat.le_add_right 1 _

end AsmScan.Lexeme
