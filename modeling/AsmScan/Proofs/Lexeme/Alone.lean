import AsmScan.Proofs.Lexeme.Apart
import AsmScan.Proofs.Lexeme.Gap

/-! Lexemes that stand alone.

A token looks at no byte beyond its own, except to learn that it ends there. So off
the bytes that it takes, with nothing behind them, the same lexeme is read
(`read_alone`). What is wrong outside quotes is reported at the first byte of the
faulty item, never further on (`faultyAtStart_unquoted`), and so is all that is wrong
between tokens (`faultyAtStart_read`). -/
namespace AsmScan.Lexeme

/-- A rule reads the same when nothing follows the bytes that it takes. -/
def Alone (rule : List UInt8 → Lexeme) (rest : List UInt8) : Prop :=
  rule (rest.take ((rule rest).size - 1)) = rule rest

/-! ### The first bytes of a text -/

section Front
variable {n : Nat} {rest : List UInt8}

/-- A run is read off any front that reaches as far. -/
theorem takeWhile_take (p : UInt8 → Bool) (h : (rest.takeWhile p).length ≤ n) :
    (rest.take n).takeWhile p = rest.takeWhile p := by
  rw [← List.take_takeWhile, List.take_of_length_le h]

theorem nameRun_take {fs : Features} (h : (nameRun fs rest).length ≤ n) :
    nameRun fs (rest.take n) = nameRun fs rest :=
  takeWhile_take _ h

theorem digitRun_take {fs : Features} (h : (digitRun fs rest).length ≤ n) :
    digitRun fs (rest.take n) = digitRun fs rest :=
  takeWhile_take _ h

theorem head?_take_of_pos (h : 0 < n) : (rest.take n).head? = rest.head? := by
  rw [List.head?_take, if_neg (Nat.ne_of_gt h)]

theorem startsName_take (h : 0 < n) : startsName (rest.take n) = startsName rest := by
  cases rest with
  | nil => rw [List.take_nil]
  | cons b more =>
    obtain ⟨k, rfl⟩ := Nat.exists_eq_add_of_lt h
    rw [Nat.zero_add, List.take_succ_cons]
    rfl

theorem tail_take_succ : (rest.take (n + 1)).tail = rest.tail.take n := by
  cases rest with
  | nil => rw [List.take_nil, List.tail_nil, List.take_nil]
  | cons => rfl

end Front

/-! ### Words -/

section Words
variable (c : Config) (b : UInt8) (rest : List UInt8)

theorem length_nameRun_pos (fs : Features) {rest : List UInt8} (h : startsName rest = true) :
    0 < (nameRun fs rest).length := by
  have hname : startsName (nameRun fs rest) = true := startsName_nameRun h
  cases hrun : nameRun fs rest with
  | nil =>
    rw [hrun] at hname
    contradiction
  | cons => exact Nat.succ_pos _

theorem alone_localLabel : Alone (localLabel c) rest := by
  unfold Alone localLabel
  split
  next hname =>
    have hpos := length_nameRun_pos c.features hname
    simp only [size_named, Nat.add_sub_cancel_left]
    rw [startsName_take hpos, if_pos hname, nameRun_take (Nat.le_refl _)]
  · rfl

/-- A single letter takes a colon that follows it, or is what it is at the end of the text. -/
theorem letter?_cases :
    (∃ t after, rest = Byte.colon :: after ∧
        ∀ bytes, letter? b (Byte.colon :: bytes) = some (plain t 2)) ∨
      letter? b rest = letter? b [] ∧ ∀ l, letter? b [] = some l → l.size = 1 := by
  have hnil : letter? b [] = (Keyword.register? [Byte.toUpper b]).map (plain · 1) :=
    letter?_other b (by simp)
  have hsize : ∀ l, letter? b [] = some l → l.size = 1 := by
    intro l hl
    rw [hnil] at hl
    obtain ⟨t, -, rfl⟩ := Option.map_eq_some_iff.1 hl
    rfl
  by_cases hcolon : rest.head? = some Byte.colon
  · obtain ⟨after, rfl⟩ := List.head?_eq_some_iff.1 hcolon
    cases ho : Keyword.override? (Byte.toUpper b) with
    | some t =>
      refine .inl ⟨t, after, rfl, fun bytes => ?_⟩
      unfold letter?
      rw [ho]
      rfl
    | none =>
      refine .inr ⟨?_, hsize⟩
      rw [hnil]
      unfold letter?
      rw [ho]
  · exact .inr ⟨by rw [letter?_other b hcolon, hnil], hsize⟩

theorem alone_word : Alone (word c b) rest := by
  have hrun {n : Nat} (h : (nameRun c.features rest).length ≤ n) :
      nameRun c.features (rest.take n) = nameRun c.features rest := nameRun_take h
  unfold Alone
  by_cases hempty : (nameRun c.features rest).isEmpty = true
  · have hnil : nameRun c.features rest = [] := List.isEmpty_iff.1 hempty
    rw [hnil] at hrun
    rcases letter?_cases b rest with ⟨t, after, rfl, hl⟩ | ⟨hl, hsize⟩
    · have hword (bytes : List UInt8) : word c b (Byte.colon :: bytes) = plain t 2 := by
        have hnil : nameRun c.features (Byte.colon :: bytes) = [] := rfl
        simp only [word, hnil, List.isEmpty_nil, if_true, hl, Option.getD_some]
      rw [hword]
      exact hword _
    · have hword : word c b rest = word c b [] := by
        have hnil' : nameRun c.features [] = [] := rfl
        simp only [word, hnil, hnil', hl]
      have hone : (word c b []).size = 1 := by
        unfold word
        dsimp only
        rw [if_pos (show (nameRun c.features []).isEmpty = true from rfl)]
        cases h : letter? b [] with
        | none => rfl
        | some l => exact hsize l h
      rw [hword, hone]
      rfl
  · have hword (bytes : List UInt8) (h : nameRun c.features bytes = nameRun c.features rest) :
        word c b bytes =
          named (if c.cpu.isMnemonic
              (ShortString.truncate (b :: nameRun c.features rest)).toUpper.bytes
            then .mnemonic else .identifier) b (nameRun c.features rest) := by
      unfold word
      dsimp only
      rw [h, if_neg hempty]
    rw [hword rest rfl, size_named, Nat.add_sub_cancel_left]
    exact hword _ (hrun (Nat.le_refl _))

theorem alone_dotted : Alone (dotted c) rest := by
  unfold Alone
  by_cases hname : startsName rest = true
  · have hpos := length_nameRun_pos c.features hname
    have hsize : (dotted c rest).size = 1 + (nameRun c.features rest).length := by
      unfold dotted
      rw [if_pos hname]
      dsimp only
      split
      · rfl
      · split <;> rfl
    rw [hsize, Nat.add_sub_cancel_left]
    simp only [dotted, startsName_take hpos, nameRun_take (Nat.le_refl _)]
  · have hplain : dotted c rest = plain .dot 1 := if_neg hname
    rw [hplain]
    rfl

end Words

/-! ### Numbers -/

section Numbers
variable (fs : Features) (rest : List UInt8)

theorem marked_take {base : Base} {marker : Nat} {hm : 0 < marker} {n : Nat} {rest : List UInt8}
    (h : (digitRun fs rest).length ≤ n) :
    marked fs base marker (rest.take n) hm = marked fs base marker rest hm := by
  simp only [marked, digitRun_take h]

@[simp] theorem size_marked (base : Base) (marker : Nat) (h : 0 < marker) :
    (marked fs base marker rest h).size = marker + (digitRun fs rest).length := by
  simp only [marked, size_number]

theorem digitRun_pos_of_head {fs : Features} {rest : List UInt8} {b : UInt8}
    (hb : rest.head? = some b) (h : isNumberByte fs b = true) : 0 < (digitRun fs rest).length := by
  obtain ⟨more, rfl⟩ := List.head?_eq_some_iff.1 hb
  rw [digitRun, List.takeWhile_cons_of_pos h]
  exact Nat.succ_pos _

theorem alone_dollar : Alone (dollar fs) rest := by
  unfold Alone
  by_cases hdigit : (rest.head?.bind digitValue?).isSome = true
  · have hpos : 0 < (digitRun fs rest).length := by
      obtain ⟨d, hd⟩ := Option.isSome_iff_exists.1 hdigit
      obtain ⟨b, hb, hd⟩ := Option.bind_eq_some_iff.1 hd
      exact digitRun_pos_of_head hb (by simp [isNumberByte, hd])
    have hl : dollar fs rest = marked fs .hexadecimal 1 rest := if_pos hdigit
    rw [hl, size_marked, Nat.add_sub_cancel_left, dollar, head?_take_of_pos hpos, if_pos hdigit,
      marked_take fs (Nat.le_refl _)]
  · have hl : dollar fs rest = dollar fs [] := if_neg hdigit
    have hsize : (dollar fs []).size = 1 := by
      cases h : fs.dollarIsPc <;> simp [dollar, h, plain, stray]
    rw [hl, hsize]
    rfl

theorem alone_percent : Alone (percent fs) rest := by
  unfold Alone
  by_cases hdigit : rest.head? = some Byte.zero ∨ rest.head? = some Byte.one
  · have hpos : 0 < (digitRun fs rest).length := by
      rcases hdigit with hb | hb
      · exact digitRun_pos_of_head hb rfl
      · exact digitRun_pos_of_head hb rfl
    have hl : percent fs rest = marked fs .binary 1 rest := if_pos hdigit
    rw [hl, size_marked, Nat.add_sub_cancel_left, percent, head?_take_of_pos hpos, if_pos hdigit,
      marked_take fs (Nat.le_refl _)]
  · have hl : percent fs rest = plain .modulo 1 := if_neg hdigit
    rw [hl]
    rfl

/-- The letter after the first run of digits ends a number or goes before its digits, or is none of
the number's bytes. -/
theorem alone_unmarked (b : UInt8) : Alone (unmarked fs b) rest := by
  have hrun (k : Nat) :
      digitRun fs (rest.take ((digitRun fs rest).length + k)) = digitRun fs rest :=
    digitRun_take (Nat.le_add_right _ k)
  have hafter (k : Nat) :
      (rest.take ((digitRun fs rest).length + k)).drop (digitRun fs rest).length =
        (rest.drop (digitRun fs rest).length).take k := by
    rw [List.drop_take, Nat.add_sub_cancel_left]
  unfold Alone
  by_cases hH : (rest.drop (digitRun fs rest).length).head?.map Byte.toUpper = some Byte.upperH
  · have hl : unmarked fs b rest =
        number .hexadecimal (b :: digitRun fs rest) (2 + (digitRun fs rest).length) := if_pos hH
    have hsize : 2 + (digitRun fs rest).length - 1 = (digitRun fs rest).length + 1 := by omega
    rw [hl, size_number, hsize, unmarked]
    simp only [hrun, hafter, head?_take_of_pos Nat.zero_lt_one, hH, if_true]
  -- Before a marking letter there is a lone zero, so what goes before the digits is two bytes.
  have hmarked (base : Base)
      (hzero : b :: digitRun fs rest = [Byte.zero]) :
      2 + (digitRun fs (rest.drop (digitRun fs rest).length).tail).length - 1 =
          (digitRun fs rest).length +
            ((digitRun fs (rest.drop (digitRun fs rest).length).tail).length + 1) ∧
        marked fs base 2 ((rest.drop (digitRun fs rest).length).tail.take
            (digitRun fs (rest.drop (digitRun fs rest).length).tail).length) =
          marked fs base 2 (rest.drop (digitRun fs rest).length).tail := by
    rw [(List.cons.inj hzero).2, List.length_nil]
    exact ⟨by omega, marked_take fs (Nat.le_refl _)⟩
  by_cases hX : b :: digitRun fs rest = [Byte.zero] ∧
      (rest.drop (digitRun fs rest).length).head?.map Byte.toUpper = some Byte.upperX
  · obtain ⟨hsize, htake⟩ := hmarked .hexadecimal hX.1
    have hl : unmarked fs b rest =
        marked fs .hexadecimal 2 (rest.drop (digitRun fs rest).length).tail := by
      rw [unmarked, if_neg hH, if_pos hX]
    rw [hl, size_marked, hsize, unmarked]
    simp only [hrun, hafter, head?_take_of_pos (Nat.succ_pos _), tail_take_succ]
    rw [if_neg hH, if_pos hX, htake]
  by_cases hO : b :: digitRun fs rest = [Byte.zero] ∧
      (rest.drop (digitRun fs rest).length).head?.map Byte.toUpper = some Byte.upperO
  · obtain ⟨hsize, htake⟩ := hmarked .octal hO.1
    have hl : unmarked fs b rest =
        marked fs .octal 2 (rest.drop (digitRun fs rest).length).tail := by
      rw [unmarked, if_neg hH, if_neg hX, if_pos hO]
    rw [hl, size_marked, hsize, unmarked]
    simp only [hrun, hafter, head?_take_of_pos (Nat.succ_pos _), tail_take_succ]
    rw [if_neg hH, if_neg hX, if_pos hO, htake]
  · have hl : unmarked fs b rest =
        number .decimal (b :: digitRun fs rest) (1 + (digitRun fs rest).length) := by
      rw [unmarked, if_neg hH, if_neg hX, if_neg hO]
    have hrun := hrun 0
    have hafter := hafter 0
    rw [Nat.add_zero] at hrun hafter
    rw [hl, size_number, Nat.add_sub_cancel_left, unmarked]
    simp [hrun, hafter]

end Numbers

/-! ### Operators -/

section Operators
variable (rest : List UInt8)

theorem alone_colon : Alone colon rest := by
  have hsign (sign : UInt8) (more : List UInt8) :
      (more.take (more.takeWhile (· == sign)).length).takeWhile (· == sign) =
        more.takeWhile (· == sign) := takeWhile_take _ (Nat.le_refl _)
  have hsize (n : Nat) : 2 + n - 1 = n + 1 := by omega
  unfold Alone
  cases rest with
  | nil => rfl
  | cons b more =>
    by_cases hb : b ∈ [Byte.colon, Byte.equal, Byte.plus, Byte.minus]
    · simp only [List.mem_cons, List.not_mem_nil, or_false] at hb
      rcases hb with rfl | rfl | rfl | rfl
      · rfl
      · rfl
      · simp only [colon_plus, hsize, List.take_succ_cons, hsign]
      · simp only [colon_minus, hsize, List.take_succ_cons, hsign]
    · rw [colon_other hb]
      rfl

theorem alone_pair (single : Token) (seconds : List (UInt8 × Token)) :
    Alone (pair single seconds) rest := by
  unfold Alone
  cases h : rest.head?.bind (seconds.lookup ·) with
  | some t =>
    have hl : pair single seconds rest = plain t 2 := by
      rw [pair, h]
    rw [hl]
    show pair single seconds (rest.take 1) = _
    rw [pair, head?_take_of_pos Nat.zero_lt_one, h]
  | none =>
    have hl : pair single seconds rest = plain single 1 := by
      rw [pair, h]
    rw [hl]
    rfl

end Operators

/-! ### Quotes and comments -/

section Quotes
variable (fs : Features) (rest : List UInt8)

theorem body_take {quote : UInt8} {escapes hidden : Bool} {n : Nat} {rest : List UInt8}
    (h : (Quoted.body quote escapes hidden rest).length ≤ n) :
    Quoted.body quote escapes hidden (rest.take n) = Quoted.body quote escapes hidden rest := by
  induction rest generalizing hidden n with
  | nil => rw [List.take_nil]
  | cons b rest ih =>
    rw [Quoted.body] at h
    split at h
    next hend =>
      have hnil (more : List UInt8) : Quoted.body quote escapes hidden (b :: more) = [] := by
        rw [Quoted.body, if_pos hend]
      cases n with
      | zero => rw [hnil]; rfl
      | succ n => rw [List.take_succ_cons, hnil, hnil]
    next hend =>
      cases n with
      | zero => contradiction
      | succ n =>
        rw [List.take_succ_cons, Quoted.body, Quoted.body, if_neg hend, if_neg hend,
          ih (Nat.le_of_succ_le_succ h)]

/-- A closing quote is the last byte that a literal takes. If there is none, nothing takes its
place. -/
theorem quoted_take (quote : UInt8) (escapes : Bool) :
    Quoted.read quote escapes (rest.take (Quoted.read quote escapes rest).size) =
      Quoted.read quote escapes rest := by
  have hbody (k : Nat) :
      Quoted.body quote escapes false
          (rest.take ((Quoted.body quote escapes false rest).length + k)) =
        Quoted.body quote escapes false rest :=
    body_take (Nat.le_add_right _ k)
  have hafter (k : Nat) :
      (rest.take ((Quoted.body quote escapes false rest).length + k)).drop
          (Quoted.body quote escapes false rest).length =
        (rest.drop (Quoted.body quote escapes false rest).length).take k := by
    rw [List.drop_take, Nat.add_sub_cancel_left]
  by_cases hclosed :
      (rest.drop (Quoted.body quote escapes false rest).length).head? = some quote
  · simp only [Quoted.read, hclosed, if_true, decide_true, hbody, hafter,
      head?_take_of_pos Nat.zero_lt_one]
  · simp only [Quoted.read, hclosed, if_false, decide_false, hbody, hafter]
    simp

theorem alone_strLiteral : Alone (strLiteral fs) rest := by
  unfold Alone strLiteral
  simp only [Nat.add_sub_cancel_left, quoted_take]

theorem alone_charLiteral (m : Charmap) : Alone (charLiteral fs m) rest := by
  have hsize : (charLiteral fs m rest).size =
      1 + (Quoted.read Byte.singleQuote fs.stringEscapes rest).size := by
    unfold charLiteral
    dsimp only
    split
    · rfl
    · rfl
    · split <;> rfl
  unfold Alone
  rw [hsize, Nat.add_sub_cancel_left]
  simp only [charLiteral, quoted_take]

theorem alone_comment : Alone comment rest := by
  unfold Alone comment
  simp only [blank, Nat.add_sub_cancel_left, takeWhile_take _ (Nat.le_refl _)]

theorem alone_joint : Alone joint rest := by
  unfold Alone
  fun_cases joint rest <;> rfl

end Quotes

/-! ### Every rule -/

/-- **A lexeme that stands alone is the same.** Off the bytes that it takes, with nothing behind
them, the same lexeme is read. -/
theorem read_alone (c : Config) (m : Charmap) (b : UInt8) (rest : List UInt8) :
    read c m b (rest.take ((read c m b rest).size - 1)) = read c m b rest := by
  have h := rule_read c m b
  generalize read c m b = rule at h
  show Alone rule rest
  cases h with
  | localLabel => exact alone_localLabel c rest
  | word => exact alone_word c b rest
  | unmarked => exact alone_unmarked c.features rest b
  | comment => exact alone_comment rest
  | joint => exact alone_joint rest
  | dotted => exact alone_dotted c rest
  | dollar => exact alone_dollar c.features rest
  | percent => exact alone_percent c.features rest
  | strLiteral => exact alone_strLiteral c.features rest
  | charLiteral => exact alone_charLiteral c.features rest m
  | colon => exact alone_colon rest
  | pair => exact alone_pair rest _ _
  | blank | lineEnd | sign | stray => rfl

/-! ### What is wrong outside quotes -/

/-- What is wrong with a lexeme is found at its first byte. -/
def FaultyAtStart (l : Lexeme) : Prop := ∀ f ∈ l.findings, f.offset = 0

theorem faultyAtStart_nil {l : Lexeme} (h : l.findings = []) : l.FaultyAtStart := by
  intro f hf
  rw [h] at hf
  contradiction

theorem faultyAtStart_singleton {l : Lexeme} {p : Problem} (h : l.findings = [⟨0, p⟩]) :
    l.FaultyAtStart := by
  intro f hf
  rw [h, List.mem_singleton] at hf
  rw [hf]

theorem offset_atStartIf {condition : Bool} {p : Problem} {f : Finding}
    (h : f ∈ Finding.atStartIf condition p) : f.offset = 0 := by
  unfold Finding.atStartIf at h
  split at h
  · rw [List.mem_singleton.1 h]
  · contradiction

theorem offset_overlong {name : List UInt8} {f : Finding} (h : f ∈ overlong name) : f.offset = 0 :=
  offset_atStartIf h

theorem faultyAtStart_localLabel (c : Config) (rest : List UInt8) :
    (localLabel c rest).FaultyAtStart := by
  unfold localLabel
  split
  · exact fun f hf => offset_overlong hf
  · exact faultyAtStart_singleton rfl

theorem faultyAtStart_dotted (c : Config) (rest : List UInt8) : (dotted c rest).FaultyAtStart := by
  unfold dotted
  split
  · dsimp only
    split
    · exact fun f hf => offset_overlong hf
    · split
      · exact fun f hf => offset_overlong hf
      · intro f hf
        rcases List.mem_append.1 hf with hf | hf
        · exact offset_overlong hf
        · rw [List.mem_singleton.1 hf]
  · exact faultyAtStart_nil rfl

theorem faultyAtStart_word (c : Config) (b : UInt8) (rest : List UInt8) :
    (word c b rest).FaultyAtStart := by
  have hwhole (t : Token) : (named t b (nameRun c.features rest)).FaultyAtStart :=
    fun f hf => offset_overlong hf
  unfold word
  dsimp only
  split
  · cases hl : letter? b rest with
    | none => exact hwhole _
    | some l =>
      unfold letter? at hl
      split at hl
      · cases hl
        exact faultyAtStart_nil rfl
      · obtain ⟨t, -, rfl⟩ := Option.map_eq_some_iff.1 hl
        exact faultyAtStart_nil rfl
  · exact hwhole _

theorem faultyAtStart_number (base : Base) (run : List UInt8) (size : Nat) (h : 0 < size) :
    (number base run size h).FaultyAtStart := by
  unfold number
  split
  · exact faultyAtStart_nil rfl
  · exact faultyAtStart_singleton rfl
  · exact faultyAtStart_singleton rfl

theorem faultyAtStart_unmarked (fs : Features) (b : UInt8) (rest : List UInt8) :
    (unmarked fs b rest).FaultyAtStart := by
  unfold unmarked marked
  dsimp only
  split
  · exact faultyAtStart_number _ _ _ _
  · split
    · exact faultyAtStart_number _ _ _ _
    · split <;> exact faultyAtStart_number _ _ _ _

theorem faultyAtStart_dollar (fs : Features) (rest : List UInt8) :
    (dollar fs rest).FaultyAtStart := by
  unfold dollar
  split
  · exact faultyAtStart_number _ _ _ _
  · split
    · exact faultyAtStart_nil rfl
    · exact faultyAtStart_singleton rfl

theorem faultyAtStart_percent (fs : Features) (rest : List UInt8) :
    (percent fs rest).FaultyAtStart := by
  unfold percent
  split
  · exact faultyAtStart_number _ _ _ _
  · exact faultyAtStart_nil rfl

theorem faultyAtStart_colon (rest : List UInt8) : (colon rest).FaultyAtStart := by
  unfold colon
  split <;> exact faultyAtStart_nil rfl

theorem faultyAtStart_pair (single : Token) (seconds : List (UInt8 × Token)) (rest : List UInt8) :
    (pair single seconds rest).FaultyAtStart := by
  unfold pair
  split <;> exact faultyAtStart_nil rfl

theorem faultyAtStart_joint (rest : List UInt8) : (joint rest).FaultyAtStart := by
  unfold joint
  split
  case h_4 => exact faultyAtStart_singleton rfl
  all_goals exact faultyAtStart_nil rfl

/-- **What is wrong outside quotes is found where it begins.** -/
theorem faultyAtStart_unquoted {c : Config} {m : Charmap} {b : UInt8} {rest : List UInt8}
    (hb : b ≠ Byte.doubleQuote ∧ b ≠ Byte.singleQuote) : (read c m b rest).FaultyAtStart := by
  have h := rule_read c m b
  generalize read c m b = rule at h
  cases h with
  | localLabel => exact faultyAtStart_localLabel c rest
  | word => exact faultyAtStart_word c b rest
  | unmarked => exact faultyAtStart_unmarked c.features b rest
  | joint => exact faultyAtStart_joint rest
  | dotted => exact faultyAtStart_dotted c rest
  | dollar => exact faultyAtStart_dollar c.features rest
  | percent => exact faultyAtStart_percent c.features rest
  | strLiteral hquote => exact absurd hquote hb.1
  | charLiteral hquote => exact absurd hquote hb.2
  | colon => exact faultyAtStart_colon rest
  | pair => exact faultyAtStart_pair _ _ rest
  | stray => exact faultyAtStart_singleton rfl
  | blank | lineEnd | comment | sign => exact faultyAtStart_nil rfl

/-- What is wrong between tokens is found where it begins: quotes begin tokens only. -/
theorem faultyAtStart_read {c : Config} {m : Charmap} {b : UInt8} {rest : List UInt8}
    (htoken : ¬ IsToken (read c m b rest)) : (read c m b rest).FaultyAtStart := by
  refine faultyAtStart_unquoted ⟨?_, ?_⟩
  · rintro rfl
    rw [read_of_rule (.strLiteral rfl)] at htoken
    exact htoken ⟨_, _, rfl⟩
  · rintro rfl
    rw [read_of_rule (.charLiteral rfl)] at htoken
    exact htoken (isToken_charLiteral c.features m rest)

end AsmScan.Lexeme
