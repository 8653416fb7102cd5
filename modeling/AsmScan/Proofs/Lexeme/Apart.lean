import AsmScan.Proofs.Lexeme.Rule

/-! Where a lexeme stops.

A lexeme that does not look into quotes or comments ends where a blank, a line feed or a
backslash follows, exactly as it ends where nothing follows: `word_append` and its
siblings read it the same whatever stands behind that byte (`read_append_stopped`). A
literal or a comment ends before a line feed as at the end of the text. So where lines
cannot be joined every lexeme does (`read_append`). -/
namespace AsmScan

/-! ### Bytes that go on nothing -/

/-- A byte that sets words, numbers and operators apart. -/
def Byte.isGap (b : UInt8) : Bool := b == lineFeed || isBlank b

/-- A byte that goes on no word, number or operator. -/
def Byte.isStop (b : UInt8) : Bool := isGap b || b == backslash

theorem Byte.stop_cases {b : UInt8} (h : isStop b = true) :
    b = lineFeed ∨ b = space ∨ b = tab ∨ b = verticalTab ∨ b = formFeed ∨ b = carriageReturn ∨
      b = backslash := by
  simpa [isStop, isGap, isBlank, or_assoc] using h

/-- A text that is empty or begins with a gap. -/
def Apart (tail : List UInt8) : Prop := ∀ b ∈ tail.head?, Byte.isGap b = true

/-- A text that is empty or begins with a byte that goes on nothing. -/
def Stopped (tail : List UInt8) : Prop := ∀ b ∈ tail.head?, Byte.isStop b = true

theorem Apart.stopped {tail : List UInt8} (h : Apart tail) : Stopped tail := by
  intro b hb
  rw [Byte.isStop, h b hb, Bool.true_or]

theorem stopped_cons {b : UInt8} (h : Byte.isStop b = true) (more : List UInt8) :
    Stopped (b :: more) := by
  intro b' hb'
  cases hb'
  exact h

/-- A text that is empty or begins with a line feed. -/
def NewLine (tail : List UInt8) : Prop := ∀ b ∈ tail.head?, b = Byte.lineFeed

theorem NewLine.apart {tail : List UInt8} (h : NewLine tail) : Apart tail := by
  intro b hb
  rw [h b hb]
  rfl

theorem apart_nil : Apart [] := fun _ h => by contradiction

theorem apart_cons {b : UInt8} {more : List UInt8} (h : Byte.isGap b = true) : Apart (b :: more) := by
  intro b' hb'
  cases hb'
  exact h

namespace Lexeme

/-- A run ends where the text does, or where a byte follows that does not go on it. -/
theorem takeWhile_append (p : UInt8 → Bool) {tail : List UInt8}
    (h : ∀ b ∈ tail.head?, p b = false) (rest : List UInt8) :
    (rest ++ tail).takeWhile p = rest.takeWhile p := by
  induction rest with
  | nil =>
    cases tail with
    | nil => rfl
    | cons b more => exact List.takeWhile_cons_of_neg (by simp [h b rfl])
  | cons b rest ih => rw [List.cons_append, List.takeWhile_cons, List.takeWhile_cons, ih]

section Runs
variable {tail : List UInt8} (h : Stopped tail) (fs : Features) (rest : List UInt8)
include h

theorem nameRun_append : nameRun fs (rest ++ tail) = nameRun fs rest := by
  refine takeWhile_append _ (fun b hb => ?_) rest
  rcases Byte.stop_cases (h b hb) with rfl | rfl | rfl | rfl | rfl | rfl | rfl <;> rfl

theorem digitRun_append : digitRun fs (rest ++ tail) = digitRun fs rest := by
  refine takeWhile_append _ (fun b hb => ?_) rest
  rcases Byte.stop_cases (h b hb) with rfl | rfl | rfl | rfl | rfl | rfl | rfl <;> rfl

theorem startsName_append : startsName (rest ++ tail) = startsName rest := by
  cases rest with
  | cons => rfl
  | nil =>
    cases tail with
    | nil => rfl
    | cons b more =>
      show Byte.isNameStart b = false
      rcases Byte.stop_cases (h b rfl) with rfl | rfl | rfl | rfl | rfl | rfl | rfl <;> rfl

/-- What a byte begins that looks at the next one only is the same before a stop as at the end. -/
theorem head?_append {α : Type} (f : Option UInt8 → α)
    (hstop : ∀ b, Byte.isStop b = true → f (some b) = f none) :
    f (rest ++ tail).head? = f rest.head? := by
  cases rest with
  | cons => rfl
  | nil =>
    cases tail with
    | nil => rfl
    | cons b more => exact hstop b (h b rfl)

end Runs

/-! ### Words -/

/-- A letter can be a register, unless a colon follows it. -/
theorem letter?_other (b : UInt8) {rest : List UInt8} (h : rest.head? ≠ some Byte.colon) :
    letter? b rest = (Keyword.register? [Byte.toUpper b]).map (plain · 1) := by
  unfold letter?
  split
  · exact absurd rfl h
  · rfl

/-- Behind a colon nothing has a say in what a letter is. -/
theorem letter?_colon (b : UInt8) (more : List UInt8) :
    letter? b (Byte.colon :: more) = letter? b [Byte.colon] := by
  unfold letter?
  cases Keyword.override? (Byte.toUpper b) <;> rfl

section Words
variable {tail : List UInt8} (h : Stopped tail) (c : Config) (rest : List UInt8)
include h

theorem localLabel_append : localLabel c (rest ++ tail) = localLabel c rest := by
  unfold localLabel
  rw [startsName_append h, nameRun_append h]

theorem dotted_append : dotted c (rest ++ tail) = dotted c rest := by
  simp only [dotted, startsName_append h, nameRun_append h]

theorem letter?_append (b : UInt8) : letter? b (rest ++ tail) = letter? b rest := by
  cases rest with
  | nil =>
    have htail : tail.head? ≠ some Byte.colon := by
      intro hcolon
      have hstop := h Byte.colon hcolon
      contradiction
    rw [List.nil_append, letter?_other b htail, letter?_other b (by simp)]
  | cons first more =>
    rw [List.cons_append]
    by_cases hcolon : first = Byte.colon
    · subst hcolon
      rw [letter?_colon, letter?_colon b more]
    · have hfirst (bytes : List UInt8) : (first :: bytes).head? ≠ some Byte.colon :=
        fun h => hcolon (Option.some.inj h)
      rw [letter?_other b (hfirst _), letter?_other b (hfirst _)]

theorem word_append (b : UInt8) : word c b (rest ++ tail) = word c b rest := by
  unfold word
  rw [nameRun_append h, letter?_append h]

end Words

/-! ### Numbers -/

section Numbers
variable {tail : List UInt8} (h : Stopped tail) (fs : Features) (rest : List UInt8)
include h

theorem marked_append (base : Base) (marker : Nat) (hm : 0 < marker) :
    marked fs base marker (rest ++ tail) hm = marked fs base marker rest hm := by
  unfold marked
  simp only [digitRun_append h]

theorem dollar_append : dollar fs (rest ++ tail) = dollar fs rest := by
  have hdigit : ((rest ++ tail).head?.bind digitValue?).isSome =
      (rest.head?.bind digitValue?).isSome :=
    head?_append h rest (fun b? => (b?.bind digitValue?).isSome) fun b hb => by
      rcases Byte.stop_cases hb with rfl | rfl | rfl | rfl | rfl | rfl | rfl <;> rfl
  unfold dollar
  rw [hdigit, marked_append h]

theorem percent_append : percent fs (rest ++ tail) = percent fs rest := by
  have hdigit : ((rest ++ tail).head? = some Byte.zero ∨ (rest ++ tail).head? = some Byte.one) =
      (rest.head? = some Byte.zero ∨ rest.head? = some Byte.one) :=
    head?_append h rest (fun b? => b? = some Byte.zero ∨ b? = some Byte.one) fun b hb => by
      rcases Byte.stop_cases hb with rfl | rfl | rfl | rfl | rfl | rfl | rfl <;> decide
  unfold percent
  simp only [hdigit, marked_append h]

theorem unmarked_append (b : UInt8) : unmarked fs b (rest ++ tail) = unmarked fs b rest := by
  have hdrop : (rest ++ tail).drop (digitRun fs rest).length =
      rest.drop (digitRun fs rest).length ++ tail :=
    List.drop_append_of_le_length (length_digitRun_le fs rest)
  have hmark (mark : UInt8) (hstop : ∀ b, Byte.isStop b = true → Byte.toUpper b ≠ mark)
      (bytes : List UInt8) : ((bytes ++ tail).head?.map Byte.toUpper = some mark) =
        (bytes.head?.map Byte.toUpper = some mark) :=
    head?_append h bytes (fun b? => b?.map Byte.toUpper = some mark) fun b hb => by
      simp [hstop b hb]
  have hH := hmark Byte.upperH fun b hb => by
    rcases Byte.stop_cases hb with rfl | rfl | rfl | rfl | rfl | rfl | rfl <;> decide
  have hX := hmark Byte.upperX fun b hb => by
    rcases Byte.stop_cases hb with rfl | rfl | rfl | rfl | rfl | rfl | rfl <;> decide
  have hO := hmark Byte.upperO fun b hb => by
    rcases Byte.stop_cases hb with rfl | rfl | rfl | rfl | rfl | rfl | rfl <;> decide
  unfold unmarked
  simp only [digitRun_append h, hdrop, hH, hX, hO]
  generalize rest.drop (digitRun fs rest).length = after
  cases after with
  | nil => simp
  | cons first more => simp only [List.cons_append, List.tail_cons, marked_append h]

end Numbers

/-! ### Operators -/

/-- A colon is one sign unless one of four others follows it. -/
theorem colon_other {b : UInt8} (hb : b ∉ [Byte.colon, Byte.equal, Byte.plus, Byte.minus])
    {more : List UInt8} : colon (b :: more) = plain .colon 1 := by
  unfold colon
  split
  case h_5 => rfl
  all_goals
    next heq =>
      rw [(List.cons.inj heq).1] at hb
      exact absurd hb (by decide)

theorem colon_plus (more : List UInt8) :
    colon (Byte.plus :: more) =
      { meaning := .token .unnamedLabel (.int (1 + (more.takeWhile (· == Byte.plus)).length))
        size := 2 + (more.takeWhile (· == Byte.plus)).length } := rfl

theorem colon_minus (more : List UInt8) :
    colon (Byte.minus :: more) =
      { meaning := .token .unnamedLabel (.int (-(1 + (more.takeWhile (· == Byte.minus)).length)))
        size := 2 + (more.takeWhile (· == Byte.minus)).length } := rfl

section Operators
variable {tail : List UInt8} (h : Stopped tail) (rest : List UInt8)
include h

theorem colon_append : colon (rest ++ tail) = colon rest := by
  have hrun (sign : UInt8) (hsign : ∀ b, Byte.isStop b = true → (b == sign) = false)
      (bytes : List UInt8) :
      (bytes ++ tail).takeWhile (· == sign) = bytes.takeWhile (· == sign) :=
    takeWhile_append _ (fun b hb => hsign b (h b hb)) bytes
  have hplus := hrun Byte.plus fun b hb => by
    rcases Byte.stop_cases hb with rfl | rfl | rfl | rfl | rfl | rfl | rfl <;> rfl
  have hminus := hrun Byte.minus fun b hb => by
    rcases Byte.stop_cases hb with rfl | rfl | rfl | rfl | rfl | rfl | rfl <;> rfl
  cases rest with
  | nil =>
    cases tail with
    | nil => rfl
    | cons b more =>
      rcases Byte.stop_cases (h b rfl) with rfl | rfl | rfl | rfl | rfl | rfl | rfl <;> rfl
  | cons b more =>
    rw [List.cons_append]
    by_cases hb : b ∈ [Byte.colon, Byte.equal, Byte.plus, Byte.minus]
    · simp only [List.mem_cons, List.not_mem_nil, or_false] at hb
      rcases hb with rfl | rfl | rfl | rfl
      · rfl
      · rfl
      · simp only [colon_plus, hplus]
      · simp only [colon_minus, hminus]
    · rw [colon_other hb, colon_other hb]

theorem pair_append {b : UInt8} {single : Token} {seconds : List (UInt8 × Token)}
    (hb : (b, single, seconds) ∈ doubled) :
    pair single seconds (rest ++ tail) = pair single seconds rest := by
  have htable : ∀ d ∈ doubled, ∀ s ∈ d.2.2, Byte.isStop s.1 = false := by decide
  unfold pair
  rw [head?_append h rest (·.bind (seconds.lookup ·)) fun b' hb' => ?_]
  refine List.lookup_eq_none_iff.2 fun s hs => ?_
  have := htable _ hb s hs
  rw [bne_iff_ne]
  rintro rfl
  rw [hb'] at this
  contradiction

end Operators

/-! ### Quotes and comments -/

section NewLine
variable {tail : List UInt8} (h : NewLine tail) (fs : Features) (rest : List UInt8)
include h

theorem body_append (quote : UInt8) (escapes hidden : Bool) :
    Quoted.body quote escapes hidden (rest ++ tail) = Quoted.body quote escapes hidden rest := by
  induction rest generalizing hidden with
  | nil =>
    cases tail with
    | nil => rfl
    | cons b more =>
      rw [h b rfl]
      rfl
  | cons b rest ih => simp only [List.cons_append, Quoted.body, ih]

theorem quoted_append {quote : UInt8} (hquote : quote ≠ Byte.lineFeed) (escapes : Bool) :
    Quoted.read quote escapes (rest ++ tail) = Quoted.read quote escapes rest := by
  have hdrop : (rest ++ tail).drop (Quoted.body quote escapes false rest).length =
      rest.drop (Quoted.body quote escapes false rest).length ++ tail :=
    List.drop_append_of_le_length (length_body_le ..)
  have hclosed (bytes : List UInt8) :
      ((bytes ++ tail).head? = some quote) = (bytes.head? = some quote) := by
    cases bytes with
    | cons => rfl
    | nil =>
      cases tail with
      | nil => rfl
      | cons b more =>
        rw [h b rfl]
        simpa using hquote.symm
  unfold Quoted.read
  simp only [body_append h, hdrop, hclosed]

theorem strLiteral_append : strLiteral fs (rest ++ tail) = strLiteral fs rest := by
  unfold strLiteral
  simp only [quoted_append h _ (by decide : Byte.doubleQuote ≠ Byte.lineFeed)]

theorem charLiteral_append (m : Charmap) :
    charLiteral fs m (rest ++ tail) = charLiteral fs m rest := by
  unfold charLiteral
  simp only [quoted_append h _ (by decide : Byte.singleQuote ≠ Byte.lineFeed)]

theorem comment_append : comment (rest ++ tail) = comment rest := by
  have hrun : (rest ++ tail).takeWhile (· != Byte.lineFeed) = rest.takeWhile (· != Byte.lineFeed) :=
    takeWhile_append _ (fun b hb => by rw [h b hb]; rfl) rest
  simp only [comment, hrun]

end NewLine

/-! ### Every rule -/

/-- The bytes that begin what a stop need not end: comments, joined lines and literals. -/
def runners : List UInt8 :=
  [Byte.semicolon, Byte.backslash, Byte.doubleQuote, Byte.singleQuote]

/-- A rule reads up to a stop, if that is a line feed or ends whatever the byte began. -/
theorem rule_append {c : Config} {m : Charmap} {b : UInt8} {rule : List UInt8 → Lexeme}
    (hrule : Rule c m b rule) (rest : List UInt8) {tail : List UInt8} (h : Stopped tail)
    (hline : b ∈ runners → NewLine tail ∧ (b = Byte.backslash → c.features.lineCont = false)) :
    rule (rest ++ tail) = rule rest := by
  cases hrule with
  | localLabel => exact localLabel_append h c rest
  | word => exact word_append h c rest b
  | unmarked => exact unmarked_append h c.features rest b
  | comment hb => exact comment_append (hline (hb ▸ by decide)).1 rest
  | joint hb hjoint =>
    rw [(hline (hb ▸ by decide)).2 hb] at hjoint
    contradiction
  | dotted => exact dotted_append h c rest
  | dollar => exact dollar_append h c.features rest
  | percent => exact percent_append h c.features rest
  | strLiteral hb => exact strLiteral_append (hline (hb ▸ by decide)).1 c.features rest
  | charLiteral hb => exact charLiteral_append (hline (hb ▸ by decide)).1 c.features rest m
  | colon => exact colon_append h rest
  | pair hb => exact pair_append h rest hb
  | blank | lineEnd | sign | stray => rfl

/-- Every lexeme ends before a stop as at the end of the text, if its first byte lets it. -/
theorem read_append_stopped (c : Config) (m : Charmap) {b : UInt8} (hb : b ∉ runners)
    (rest : List UInt8) {tail : List UInt8} (h : Stopped tail) :
    read c m b (rest ++ tail) = read c m b rest :=
  rule_append (rule_read c m b) rest h fun hmem => absurd hmem hb

/-- **Every lexeme ends before a line feed as at the end of the text**, where lines cannot be
joined. -/
theorem read_append {c : Config} (hc : c.features.lineCont = false) (m : Charmap) (b : UInt8)
    (rest : List UInt8) {tail : List UInt8} (h : NewLine tail) :
    read c m b (rest ++ tail) = read c m b rest :=
  rule_append (rule_read c m b) rest h.apart.stopped fun _ => ⟨h, fun _ => hc⟩

/-! ### Line feeds -/

/-- A backslash that joins a line with the next, and the end of its line. -/
def Joins (c : Config) (bytes : List UInt8) : Prop :=
  c.features.lineCont = true ∧
    (bytes = [Byte.backslash, Byte.lineFeed] ∨
      bytes = [Byte.backslash, Byte.carriageReturn, Byte.lineFeed])

theorem joins_of_mem_joint {c : Config} (hc : c.features.lineCont = true) {rest : List UInt8}
    (h : Byte.lineFeed ∈ (Byte.backslash :: rest).take (joint rest).size) :
    Joins c ((Byte.backslash :: rest).take (joint rest).size) := by
  have hreturn : Byte.lineFeed ∉ [Byte.backslash, Byte.carriageReturn] := by decide
  have hstray : Byte.lineFeed ∉ [Byte.backslash] := by decide
  revert h
  unfold joint
  split <;> intro h
  · exact ⟨hc, .inl rfl⟩
  · exact ⟨hc, .inr rfl⟩
  · exact absurd h hreturn
  · exact absurd h hstray

/-- **A lexeme that takes a line feed ends a line or joins two.** -/
theorem eq_or_joins_of_mem (c : Config) (m : Charmap) {b : UInt8} {rest : List UInt8}
    (h : Byte.lineFeed ∈ (b :: rest).take (read c m b rest).size) :
    b = Byte.lineFeed ∨ Joins c ((b :: rest).take (read c m b rest).size) := by
  by_cases hjoint : b = Byte.backslash ∧ c.features.lineCont = true
  · obtain ⟨rfl, hc⟩ := hjoint
    have hread : read c m Byte.backslash rest = joint rest :=
      (if_neg (ne_mark c (by decide))).trans (if_pos hc)
    rw [hread] at h ⊢
    exact .inr (joins_of_mem_joint hc h)
  · left
    by_contra hb
    -- Up to the first line feed the lexeme is read as if nothing followed, and so it stops there.
    have hfeed : Byte.lineFeed ∈ rest :=
      (List.mem_cons.1 (List.mem_of_mem_take h)).resolve_left (Ne.symm hb)
    obtain ⟨line, more, rfl, hline⟩ := List.eq_append_cons_of_mem hfeed
    have htail : NewLine (Byte.lineFeed :: more) := fun _ h => (Option.mem_some.1 h).symm
    have hread : read c m b (line ++ Byte.lineFeed :: more) = read c m b line :=
      rule_append (rule_read c m b) line htail.apart.stopped fun _ =>
        ⟨htail, fun hb => by simpa [hb] using hjoint⟩
    have hsize : (read c m b line).size ≤ (b :: line).length := by
      rw [List.length_cons, Nat.add_comm]
      exact size_read_le c m b line
    rw [hread, ← List.cons_append, List.take_append_of_le_length hsize] at h
    rcases List.mem_cons.1 (List.mem_of_mem_take h) with h | h
    · exact hb h.symm
    · exact hline h

end Lexeme
end AsmScan
