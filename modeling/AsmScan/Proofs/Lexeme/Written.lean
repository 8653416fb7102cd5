import AsmScan.Proofs.Byte
import AsmScan.Proofs.Lexeme.Alphabet
import AsmScan.Proofs.Lexeme.Gap
import AsmScan.Proofs.Lexeme.Lexes

/-! How numbers are written.

A number is a run of digits with the mark of its base, if any, in front of it or
behind. `Written` lists the notations, without a word about how they are read. Whatever
begins as a number does is written in one of them (`exists_written`), and is read as its
run in its base, whole and no further (`read_written`). -/
namespace AsmScan.Lexeme

/-- A run of digits that ends before some bytes. -/
structure Run (fs : Features) (run after : List UInt8) : Prop where
  goes : ∀ b ∈ run, GoesOnNumber fs b
  ends : ∀ b ∈ after.head?, ¬ GoesOnNumber fs b

/-- The radix of a number, its run of digits, and the bytes that it is written with, before some
others. -/
inductive Written (fs : Features) (after : List UInt8) : Nat → List UInt8 → List UInt8 → Prop where
  | dollar {b d : UInt8} {more : List UInt8} : (b, d) ∈ hexDigits → Run fs (b :: more) after →
      Written fs after 16 (b :: more) (Byte.dollar :: b :: more)
  | percent {b : UInt8} {more : List UInt8} : b = Byte.zero ∨ b = Byte.one →
      Run fs (b :: more) after → Written fs after 2 (b :: more) (Byte.percent :: b :: more)
  | suffix {b mark : UInt8} {more : List UInt8} : b ∈ Byte.digits → Run fs (b :: more) [mark] →
      mark ∈ utf8 "hH" → Written fs after 16 (b :: more) (b :: more ++ [mark])
  | hexadecimal {mark : UInt8} {run : List UInt8} : mark ∈ utf8 "xX" → Run fs run after →
      Written fs after 16 run (Byte.zero :: mark :: run)
  | octal {mark : UInt8} {run : List UInt8} : mark ∈ utf8 "oO" → Run fs run after →
      Written fs after 8 run (Byte.zero :: mark :: run)
  /-- A run that no mark follows. After a zero alone there are two more marks. -/
  | decimal {b : UInt8} {more : List UInt8} : b ∈ Byte.digits → Run fs (b :: more) after →
      (∀ mark ∈ after.head?, mark ∉ utf8 "hH") →
      (b :: more = [Byte.zero] → ∀ mark ∈ after.head?, mark ∉ utf8 "xX" ∧ mark ∉ utf8 "oO") →
      Written fs after 10 (b :: more) (b :: more)

section Runs
variable {fs : Features} {run after : List UInt8}

theorem run_iff :
    Run fs run after ↔ (∀ b ∈ run, isNumberByte fs b = true) ∧
      ∀ b ∈ after.head?, isNumberByte fs b = false := by
  simp only [isNumberByte_iff, isNumberByte_eq_false_iff]
  exact ⟨fun h => ⟨h.goes, h.ends⟩, fun h => ⟨h.1, h.2⟩⟩

theorem Run.digitRun_append (h : Run fs run after) : digitRun fs (run ++ after) = run := by
  obtain ⟨hgoes, hends⟩ := run_iff.1 h
  rw [digitRun, takeWhile_append _ hends]
  exact List.takeWhile_eq_self_iff.2 hgoes

theorem Run.tail {b : UInt8} (h : Run fs (b :: run) after) : Run fs run after :=
  ⟨fun b hb => h.goes b (List.mem_cons_of_mem _ hb), h.ends⟩

/-- What goes on a run at the front of a text is a run. -/
theorem exists_run (fs : Features) (rest : List UInt8) :
    ∃ run after, rest = run ++ after ∧ Run fs run after := by
  refine ⟨rest.takeWhile (isNumberByte fs), rest.dropWhile (isNumberByte fs), ?_, run_iff.2 ?_⟩
  · exact List.takeWhile_append_dropWhile.symm
  · exact ⟨fun b hb => List.mem_takeWhile_imp hb, run_ends (isNumberByte fs) rest⟩

/-- A letter that marks a base goes on no run. -/
theorem not_goesOnNumber_mark {mark : UInt8} (h : Byte.toUpper mark = Byte.upperX ∨
    Byte.toUpper mark = Byte.upperO) : ¬ GoesOnNumber fs mark := by
  rw [← isNumberByte_eq_false_iff, isNumberByte, ← Byte.digitValue?_toUpper,
    ← Byte.beq_toUpper _ rfl]
  rcases h with h | h <;> rw [h] <;> rfl

/-- Whether a mark stands behind a run is told by the capital of the byte there. -/
theorem exists_mark {marks : List UInt8} {upper : UInt8}
    (hmarks : ∀ b, b ∈ marks ↔ Byte.toUpper b = upper)
    (h : after.head?.map Byte.toUpper = some upper) :
    ∃ mark tail, after = mark :: tail ∧ mark ∈ marks := by
  obtain ⟨mark, hhead, hmark⟩ := Option.map_eq_some_iff.1 h
  obtain ⟨tail, htail⟩ := List.head?_eq_some_iff.1 hhead
  exact ⟨mark, tail, htail, (hmarks mark).2 hmark⟩

theorem forall_not_mem_marks_iff {marks : List UInt8} {upper : UInt8}
    (hmarks : ∀ b, b ∈ marks ↔ Byte.toUpper b = upper) :
    (∀ mark ∈ after.head?, mark ∉ marks) ↔ after.head?.map Byte.toUpper ≠ some upper := by
  simp only [hmarks, ne_eq, Option.map_eq_some_iff, not_exists, not_and, Option.mem_def]

/-! ### Reading -/

theorem marked_run (h : Run fs run after) (base : Base) (marker : Nat) (hm : 0 < marker) :
    marked fs base marker (run ++ after) hm = number base run (marker + run.length) := by
  unfold marked
  simp only [h.digitRun_append]

theorem unmarked_run {b : UInt8} {more : List UInt8} (h : Run fs more after) :
    unmarked fs b (more ++ after) =
      if after.head?.map Byte.toUpper = some Byte.upperH then
        number .hexadecimal (b :: more) (2 + more.length)
      else if b :: more = [Byte.zero] ∧ after.head?.map Byte.toUpper = some Byte.upperX then
        marked fs .hexadecimal 2 after.tail
      else if b :: more = [Byte.zero] ∧ after.head?.map Byte.toUpper = some Byte.upperO then
        marked fs .octal 2 after.tail
      else number .decimal (b :: more) (1 + more.length) := by
  unfold unmarked
  simp only [h.digitRun_append, List.drop_left]

/-- Behind a zero, a letter that marks a base ends the run at once. -/
theorem unmarked_zero {mark : UInt8} (h : Byte.toUpper mark = Byte.upperX ∨
    Byte.toUpper mark = Byte.upperO) (rest : List UInt8) :
    unmarked fs Byte.zero (mark :: rest) =
      if Byte.toUpper mark = Byte.upperX then marked fs .hexadecimal 2 rest
      else marked fs .octal 2 rest := by
  have hrun : Run fs [] (mark :: rest) := by
    refine ⟨fun _ hb => absurd hb List.not_mem_nil, fun b hb => ?_⟩
    cases hb
    exact not_goesOnNumber_mark h
  have hread := unmarked_run (b := Byte.zero) hrun
  rw [List.nil_append] at hread
  rw [hread, List.head?_cons, Option.map_some, List.tail_cons]
  rcases h with h | h <;> rw [h] <;> rfl

theorem number_congr (base : Base) (run : List UInt8) {n k : Nat} (h : n = k) (hn : 0 < n)
    (hk : 0 < k) : number base run n hn = number base run k hk := by
  subst h
  rfl

end Runs

/-- All of a number's run goes on it. -/
theorem Written.goes {fs : Features} {radix : Nat} {run lexeme after : List UInt8}
    (h : Written fs after radix run lexeme) : ∀ b ∈ run, GoesOnNumber fs b := by
  cases h with
  | dollar _ hrun | percent _ hrun | suffix _ hrun | hexadecimal _ hrun | octal _ hrun
  | decimal _ hrun => exact hrun.goes

/-- **A number is read as its run in the base of its radix**, and ends where its notation does. -/
theorem read_written {c : Config} (m : Charmap) {radix : Nat} {run lexeme after : List UInt8}
    (h : Written c.features after radix run lexeme) :
    ∃ base first rest, base.radix = radix ∧ lexeme = first :: rest ∧
      read c m first (rest ++ after) = number base run (1 + rest.length) := by
  cases h with
  | @dollar b d more hb hrun =>
    have hread (rest) : read c m Byte.dollar rest = dollar c.features rest :=
      if_neg (ne_mark c (by decide))
    have hfirst : ((b :: more ++ after).head?.bind digitValue?).isSome = true :=
      isSome_digitValue?_iff.2 ⟨d, hb⟩
    refine ⟨.hexadecimal, _, _, rfl, rfl, ?_⟩
    rw [hread, dollar, if_pos hfirst, marked_run hrun]
  | @percent b more hb hrun =>
    have hread (rest) : read c m Byte.percent rest = percent c.features rest :=
      if_neg (ne_mark c (by decide))
    have hfirst : (b :: more ++ after).head? = some Byte.zero ∨
        (b :: more ++ after).head? = some Byte.one := hb.imp (congrArg some) (congrArg some)
    refine ⟨.binary, _, _, rfl, rfl, ?_⟩
    rw [hread, percent, if_pos hfirst, marked_run hrun]
  | @suffix b mark more hb hrun hmark =>
    have hmore : Run c.features more (mark :: after) := ⟨hrun.tail.goes, hrun.ends⟩
    have hhead : (mark :: after).head?.map Byte.toUpper = some Byte.upperH :=
      congrArg some ((Byte.mem_marks.1 mark).1 hmark)
    refine ⟨.hexadecimal, b, more ++ [mark], rfl, rfl, ?_⟩
    rw [read_unmarked c m _ (Byte.isDigit_iff.2 hb), List.append_assoc, List.singleton_append,
      unmarked_run hmore, if_pos hhead]
    exact number_congr _ _ (by rw [List.length_append, List.length_singleton]; omega) _ _
  | @hexadecimal mark run hmark hrun =>
    have hupper := (Byte.mem_marks.2.1 mark).1 hmark
    refine ⟨.hexadecimal, Byte.zero, mark :: run, rfl, rfl, ?_⟩
    rw [read_unmarked c m _ (by decide), List.cons_append, unmarked_zero (.inl hupper),
      if_pos hupper, marked_run hrun]
    exact number_congr _ _ (by rw [List.length_cons]; omega) _ _
  | @octal mark run hmark hrun =>
    have hupper := (Byte.mem_marks.2.2 mark).1 hmark
    have hne : Byte.toUpper mark ≠ Byte.upperX := by
      rw [hupper]
      decide
    refine ⟨.octal, Byte.zero, mark :: run, rfl, rfl, ?_⟩
    rw [read_unmarked c m _ (by decide), List.cons_append, unmarked_zero (.inr hupper),
      if_neg hne, marked_run hrun]
    exact number_congr _ _ (by rw [List.length_cons]; omega) _ _
  | @decimal b more hb hrun hsuffix hzero =>
    have hplain := (forall_not_mem_marks_iff Byte.mem_marks.1).1 hsuffix
    have hhex (h : b :: more = [Byte.zero]) :=
      (forall_not_mem_marks_iff Byte.mem_marks.2.1).1 fun mark hm => (hzero h mark hm).1
    have hoctal (h : b :: more = [Byte.zero]) :=
      (forall_not_mem_marks_iff Byte.mem_marks.2.2).1 fun mark hm => (hzero h mark hm).2
    refine ⟨.decimal, b, more, rfl, rfl, ?_⟩
    rw [read_unmarked c m _ (Byte.isDigit_iff.2 hb), unmarked_run hrun.tail, if_neg hplain,
      if_neg fun h => hhex h.1 h.2, if_neg fun h => hoctal h.1 h.2]

/-! ### Notations -/

/-- What a number begins with. -/
inductive Begins : List UInt8 → Prop where
  | digit {b : UInt8} {rest : List UInt8} : b ∈ Byte.digits → Begins (b :: rest)
  | dollar {b d : UInt8} {rest : List UInt8} : (b, d) ∈ hexDigits → Begins (Byte.dollar :: b :: rest)
  | percent {b : UInt8} {rest : List UInt8} : b = Byte.zero ∨ b = Byte.one →
      Begins (Byte.percent :: b :: rest)

section Notations
variable {fs : Features} {b d : UInt8} {rest : List UInt8}

/-- A digit begins a run. -/
theorem exists_run_cons (fs : Features) (hb : (b, d) ∈ hexDigits) (rest : List UInt8) :
    ∃ more after, b :: rest = b :: more ++ after ∧ Run fs (b :: more) after := by
  obtain ⟨more, after, rfl, hrun⟩ := exists_run fs rest
  exact ⟨more, after, rfl, ⟨List.forall_mem_cons.2 ⟨.inl ⟨d, hb⟩, hrun.goes⟩, hrun.ends⟩⟩

/-- A run that begins with a decimal digit is a number, or has the mark of one behind it. -/
theorem exists_written_digit (hb : b ∈ Byte.digits) :
    ∃ radix run lexeme after, b :: rest = lexeme ++ after ∧ Written fs after radix run lexeme := by
  obtain ⟨d, hd⟩ := exists_mem_hexDigits hb
  obtain ⟨more, after, htext, hrun⟩ := exists_run_cons fs hd rest
  rw [htext]
  -- The byte behind the run tells the notation, with more to choose from behind a zero alone.
  by_cases hsuffix : after.head?.map Byte.toUpper = some Byte.upperH
  · obtain ⟨mark, tail, rfl, hmark⟩ := exists_mark Byte.mem_marks.1 hsuffix
    exact ⟨_, _, _, tail, by simp, .suffix hb ⟨hrun.goes, hrun.ends⟩ hmark⟩
  have hplain := (forall_not_mem_marks_iff Byte.mem_marks.1).2 hsuffix
  by_cases hzero : b :: more = [Byte.zero]
  · rw [hzero]
    by_cases hhex : after.head?.map Byte.toUpper = some Byte.upperX
    · obtain ⟨mark, tail, rfl, hmark⟩ := exists_mark Byte.mem_marks.2.1 hhex
      obtain ⟨run, after, rfl, htail⟩ := exists_run fs tail
      exact ⟨_, _, _, after, rfl, .hexadecimal hmark htail⟩
    by_cases hoctal : after.head?.map Byte.toUpper = some Byte.upperO
    · obtain ⟨mark, tail, rfl, hmark⟩ := exists_mark Byte.mem_marks.2.2 hoctal
      obtain ⟨run, after, rfl, htail⟩ := exists_run fs tail
      exact ⟨_, _, _, after, rfl, .octal hmark htail⟩
    have hnohex := (forall_not_mem_marks_iff Byte.mem_marks.2.1).2 hhex
    have hnooctal := (forall_not_mem_marks_iff Byte.mem_marks.2.2).2 hoctal
    exact ⟨_, _, _, after, rfl, .decimal (by decide) (hzero ▸ hrun) hplain fun _ mark hm =>
      ⟨hnohex mark hm, hnooctal mark hm⟩⟩
  · exact ⟨_, _, _, after, rfl, .decimal hb hrun hplain fun h => absurd h hzero⟩

/-- **Whatever begins as a number does is written as one.** -/
theorem exists_written (fs : Features) {text : List UInt8} (h : Begins text) :
    ∃ radix run lexeme after, text = lexeme ++ after ∧ Written fs after radix run lexeme := by
  cases h with
  | digit hb => exact exists_written_digit hb
  | @dollar b d rest hb =>
    obtain ⟨more, after, htext, hrun⟩ := exists_run_cons fs hb rest
    exact ⟨_, _, _, after, congrArg _ htext, .dollar hb hrun⟩
  | @percent b rest hb =>
    obtain ⟨d, hd⟩ := exists_mem_hexDigits (b := b) (by rcases hb with rfl | rfl <;> decide)
    obtain ⟨more, after, htext, hrun⟩ := exists_run_cons fs hd rest
    exact ⟨_, _, _, after, congrArg _ htext, .percent hb hrun⟩

end Notations
end AsmScan.Lexeme
