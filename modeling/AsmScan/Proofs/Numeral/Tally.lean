import AsmScan.Proofs.Numeral.Positional
import Mathlib.Data.List.Induction

/-! Reading a run byte by byte.

A run can be read in one pass, with the sum kept in a word and a note of whether it was
ever too large (`tally`). The note is no more than the sum shows, and the sum is no more
than the value shows: after every front of the run, the `Tally` counts what has been read
(`Counts`), and one more digit keeps it so (`Counts.add`). So no product and no sum on
the way is too large for its word, and the pass comes to what the run is worth
(`eval_exact`). -/
namespace AsmScan.Numeral

/-- How far a run has been read. -/
structure Tally where
  sum : UInt64
  /-- Whether there was a digit. -/
  any : Bool
  /-- Whether the sum was too large, now or before. -/
  past : Bool

namespace Tally

def start : Tally := ⟨0, false, false⟩

/-- One more digit. What is too large is held one past the limit. -/
def add (base : Base) (t : Tally) (digit : UInt8) : Tally :=
  let longer := t.sum * base.radix.toUInt64 + digit.toUInt64
  if limit < longer then ⟨limit + 1, true, true⟩ else ⟨longer, true, t.past⟩

/-- One more byte. A byte that is no digit of the base ends the reading. -/
def read (base : Base) (t : Tally) (b : UInt8) : Except Fault Tally :=
  if b = Byte.underscore then .ok t
  else
    match digit? base b with
    | none => .error .badDigit
    | some digit => .ok (t.add base digit)

def outcome (t : Tally) : Except Fault UInt64 :=
  if t.any then if t.past then .error .tooLarge else .ok t.sum else .error .noDigits

end Tally

/-- A run, read from its first byte on. -/
def tally (base : Base) (run : List UInt8) : Except Fault Tally := run.foldlM (Tally.read base) .start

/-! ### What is counted -/

/-- What was read of a run is counted. -/
structure Counts (base : Base) (front : List UInt8) (t : Tally) : Prop where
  sum : t.sum.toNat = capped (value base.radix front)
  any : t.any = true ↔ digitsOf front ≠ []
  past : t.past = true ↔ limit.toNat < value base.radix front

/-- One digit more fits into a word, and so does what it is added to. -/
structure Tally.Fits (base : Base) (t : Tally) (digit : UInt8) : Prop where
  product : t.sum.toNat * base.radix < 2 ^ 64
  sum : t.sum.toNat * base.radix + digit.toNat < 2 ^ 64

section Counting
variable {base : Base} {front : List UInt8} {t : Tally} {b digit : UInt8}

theorem Counts.start : Counts base [] .start :=
  ⟨rfl, by simp [Tally.start, digitsOf], by simp [Tally.start, value, digitsOf]⟩

theorem Counts.fits (h : Counts base front t) (hdigit : digit.toNat < base.radix) :
    t.Fits base digit := by
  have hlimit : limit.toNat = 0xFFFFFFFF := rfl
  have hradix := base.radix_bounds.2
  have hsum : t.sum.toNat ≤ limit.toNat + 1 := h.sum ▸ Nat.min_le_right ..
  have hproduct : t.sum.toNat * base.radix ≤ (limit.toNat + 1) * 16 := Nat.mul_le_mul hsum hradix
  exact ⟨by omega, by omega⟩

/-- An underscore counts for nothing. -/
theorem Counts.skip (h : Counts base front t) : Counts base (front ++ [Byte.underscore]) t := by
  have hdigits : digitsOf (front ++ [Byte.underscore]) = digitsOf front :=
    (digitsOf_append ..).trans (List.append_nil _)
  have hvalue : value base.radix (front ++ [Byte.underscore]) = value base.radix front := by
    rw [value, hdigits, value]
  exact ⟨hvalue ▸ h.sum, hdigits ▸ h.any, hvalue ▸ h.past⟩

/-- **A digit more is counted**: the sum shows it, and once the value is too large it stays so. -/
theorem Counts.add (h : Counts base front t) (hb : digit? base b = some digit) :
    Counts base (front ++ [b]) (t.add base digit) := by
  obtain ⟨hvalue, hlt⟩ := digit?_eq_some_iff.1 hb
  have hdigits : digitsOf (front ++ [b]) = digitsOf front ++ [digit] := by
    rw [digitsOf_append, digitsOf_cons hvalue]
    rfl
  have hmore : value base.radix (front ++ [b]) = value base.radix front * base.radix + digit.toNat := by
    simp only [value_eq_foldl, hdigits, List.foldl_append, List.foldl_cons, List.foldl_nil]
  have hgrows : value base.radix front ≤ value base.radix (front ++ [b]) := by
    have hpos : 0 < base.radix := Nat.lt_trans Nat.one_pos base.radix_bounds.1
    have := Nat.le_mul_of_pos_right (value base.radix front) hpos
    omega
  have hextend : (extend base t.sum digit).toNat = capped (value base.radix (front ++ [b])) :=
    hmore ▸ toNat_extend hlt h.sum
  have hsome : digitsOf (front ++ [b]) ≠ [] := by simp [hdigits]
  have hpast : limit < extend base t.sum digit ↔ limit.toNat < value base.radix (front ++ [b]) := by
    rw [UInt64.lt_iff_toNat_lt, hextend, lt_capped_iff]
  unfold Tally.add
  unfold extend at hextend hpast
  dsimp only at hextend hpast ⊢
  split
  next hlonger =>
    rw [if_pos hlonger] at hextend hpast
    exact ⟨hextend, by simp [hsome], by simp [← hpast]; decide⟩
  next hlonger =>
    rw [if_neg hlonger] at hextend hpast
    have hle : ¬ limit.toNat < value base.radix (front ++ [b]) := mt hpast.2 hlonger
    refine ⟨hextend, by simp [hsome], h.past.trans ?_⟩
    exact iff_of_false (fun hlt => hle (Nat.lt_of_lt_of_le hlt hgrows)) hle

end Counting

/-- A run is read to its end if all its digits are of the base, and not otherwise. -/
theorem tally_cases (base : Base) (run : List UInt8) :
    (Clean base run ∧ ∃ t, tally base run = .ok t ∧ Counts base run t) ∨
      (¬ Clean base run ∧ tally base run = .error .badDigit) := by
  have hlast (front : List UInt8) (b : UInt8) :
      tally base (front ++ [b]) = tally base front >>= (·.read base b) := by
    simp only [tally, List.foldlM_append, List.foldlM_cons, List.foldlM_nil, bind_pure]
  induction run using List.reverseRecOn with
  | nil => exact .inl ⟨fun _ hb => absurd hb List.not_mem_nil, .start, rfl, .start⟩
  | append_singleton front b ih =>
    rw [hlast, clean_append_iff]
    rcases ih with ⟨hclean, t, ht, hcounts⟩ | ⟨hclean, ht⟩ <;> rw [ht]
    · show _ ∧ (∃ t', t.read base b = .ok t' ∧ _) ∨ _ ∧ t.read base b = _
      unfold Tally.read
      by_cases hb : b = Byte.underscore
      · subst hb
        have hone : Clean base [Byte.underscore] :=
          fun b hb hne => absurd (List.mem_singleton.1 hb) hne
        exact .inl ⟨⟨hclean, hone⟩, t, if_pos rfl, hcounts.skip⟩
      · rw [if_neg hb]
        cases hd : digit? base b with
        | none =>
          have hone : ¬ Clean base [b] := fun h => by
            have := isSome_digit?_iff.2 (h b (List.mem_singleton_self b) hb)
            rw [hd] at this
            contradiction
          exact .inr ⟨fun h => hone h.2, rfl⟩
        | some digit =>
          have hone : Clean base [b] := fun b' hb' _ => by
            rw [List.mem_singleton.1 hb', ← isSome_digit?_iff, hd]
            rfl
          exact .inl ⟨⟨hclean, hone⟩, _, rfl, hcounts.add hd⟩
    · exact .inr ⟨fun h => hclean h.1, rfl⟩

/-- The pass comes to what the run is worth. -/
theorem eval_eq_tally (base : Base) (run : List UInt8) :
    eval base run = tally base run >>= Tally.outcome := by
  rw [eval_eq]
  rcases tally_cases base run with ⟨hclean, t, ht, hcounts⟩ | ⟨hclean, ht⟩ <;> rw [ht]
  · rw [if_neg (not_not_intro hclean)]
    show _ = t.outcome
    unfold Tally.outcome
    by_cases hnone : digitsOf run = []
    · rw [if_pos hnone, if_neg (mt hcounts.any.1 (not_not_intro hnone))]
    rw [if_neg hnone, if_pos (hcounts.any.2 hnone)]
    by_cases hlarge : limit.toNat < value base.radix run
    · rw [if_pos hlarge, if_pos (hcounts.past.2 hlarge)]
    · have hsum := hcounts.sum
      rw [capped_of_le (Nat.le_of_not_lt hlarge)] at hsum
      rw [if_neg hlarge, if_neg (mt hcounts.past.1 hlarge)]
      exact congrArg Except.ok (hsum ▸ UInt64.ofNat_toNat)
  · rw [if_pos hclean]
    rfl

/-! ### What a run comes to -/

/-- What a run comes to, told by its bytes and its value. -/
structure Exact (base : Base) (run : List UInt8) (outcome : Except Fault UInt64) : Prop where
  badDigit : outcome = .error .badDigit ↔ ∃ b ∈ run, b ≠ Byte.underscore ∧ ¬ IsDigit base b
  noDigits : outcome = .error .noDigits ↔ ∀ b ∈ run, b = Byte.underscore
  tooLarge : outcome = .error .tooLarge ↔ Clean base run ∧ 0xFFFFFFFF < value base.radix run
  ok : ∀ n, outcome = .ok n ↔ Clean base run ∧ (∃ b ∈ run, b ≠ Byte.underscore) ∧
    value base.radix run ≤ 0xFFFFFFFF ∧ value base.radix run = n.toNat

section Outcome
variable {base : Base} {run : List UInt8}

theorem not_clean_iff :
    ¬ Clean base run ↔ ∃ b ∈ run, b ≠ Byte.underscore ∧ ¬ IsDigit base b := by
  simp only [Clean, not_forall, exists_prop]

/-- A run of underscores is clean, and worth nothing. -/
theorem clean_of_underscores (h : ∀ b ∈ run, b = Byte.underscore) :
    Clean base run ∧ value base.radix run = 0 := by
  have hclean : Clean base run := fun b hb hne => absurd (h b hb) hne
  refine ⟨hclean, ?_⟩
  rw [value, (digitsOf_eq_nil_iff hclean).2 h]
  rfl

theorem exact_eval (base : Base) (run : List UInt8) : Exact base run (eval base run) := by
  have hlimit : limit.toNat = 0xFFFFFFFF := rfl
  rw [eval_eq, hlimit]
  by_cases hclean : Clean base run
  · have hbad := mt not_clean_iff.2 (not_not_intro hclean)
    rw [if_neg (not_not_intro hclean)]
    by_cases hnone : ∀ b ∈ run, b = Byte.underscore
    · have hzero : value base.radix run = 0 := (clean_of_underscores hnone).2
      have hsome : ¬ ∃ b ∈ run, b ≠ Byte.underscore := fun ⟨b, hb, hne⟩ => hne (hnone b hb)
      rw [if_pos ((digitsOf_eq_nil_iff hclean).2 hnone)]
      exact ⟨iff_of_false nofun hbad, iff_of_true rfl hnone,
        iff_of_false nofun fun h => by omega, fun n => iff_of_false nofun fun h => hsome h.2.1⟩
    · have hsome : ∃ b ∈ run, b ≠ Byte.underscore := by simpa only [not_forall, exists_prop] using hnone
      rw [if_neg (mt (digitsOf_eq_nil_iff hclean).1 hnone)]
      by_cases hlarge : 0xFFFFFFFF < value base.radix run
      · rw [if_pos hlarge]
        exact ⟨iff_of_false nofun hbad, iff_of_false nofun hnone,
          iff_of_true rfl ⟨hclean, hlarge⟩, fun n => iff_of_false nofun fun h => by omega⟩
      · rw [if_neg hlarge]
        refine ⟨iff_of_false nofun hbad, iff_of_false nofun hnone,
          iff_of_false nofun fun h => hlarge h.2, fun n => ?_⟩
        have hword : (value base.radix run).toUInt64 = n ↔ value base.radix run = n.toNat := by
          have hlt : value base.radix run < UInt64.size :=
            Nat.lt_of_le_of_lt (Nat.le_of_not_lt hlarge) (by decide)
          rw [← UInt64.toNat_inj, UInt64.toNat_ofNat_of_lt' hlt]
        simp [hword, hclean, hsome, Nat.le_of_not_lt hlarge]
  · have hbad := not_clean_iff.1 hclean
    have hnone : ¬ ∀ b ∈ run, b = Byte.underscore := fun h => hclean (clean_of_underscores h).1
    rw [if_pos hclean]
    exact ⟨iff_of_true rfl hbad, iff_of_false nofun hnone,
      iff_of_false nofun fun h => hclean h.1, fun n => iff_of_false nofun fun h => hclean h.1⟩

/-! ### Digits in front and behind -/

/-- A run that is worth too much is worth too much however it goes on. -/
theorem eval_append_of_tooLarge (h : eval base run = .error .tooLarge) (more : List UInt8) :
    eval base (run ++ more) = .error .tooLarge ∨ eval base (run ++ more) = .error .badDigit := by
  obtain ⟨-, hlarge⟩ := (exact_eval base run).tooLarge.1 h
  by_cases hclean : Clean base (run ++ more)
  · left
    have hplaces : 0 < base.radix ^ (digitsOf more).length :=
      Nat.pow_pos (Nat.lt_trans Nat.one_pos base.radix_bounds.1)
    have hgrows : value base.radix run ≤ value base.radix (run ++ more) := by
      rw [value_append]
      exact Nat.le_add_right_of_le (Nat.le_mul_of_pos_right _ hplaces)
    exact (exact_eval ..).tooLarge.2 ⟨hclean, Nat.lt_of_lt_of_le hlarge hgrows⟩
  · exact .inr ((exact_eval ..).badDigit.2 (not_clean_iff.1 hclean))

/-- Zeros, with underscores among them. -/
def Zeros (zeros : List UInt8) : Prop := ∀ b ∈ zeros, b = Byte.zero ∨ b = Byte.underscore

theorem Zeros.clean {zeros : List UInt8} (h : Zeros zeros) : Clean base zeros := fun b hb hne =>
  ⟨0, by rw [(h b hb).resolve_right hne]; decide +kernel, Nat.lt_trans Nat.one_pos base.radix_bounds.1⟩

theorem Zeros.value {zeros : List UInt8} (h : Zeros zeros) : Numeral.value base.radix zeros = 0 := by
  induction zeros with
  | nil => rfl
  | cons b zeros ih =>
    obtain ⟨hb, hmore⟩ := List.forall_mem_cons.1 h
    have hfirst : Numeral.value base.radix [b] = 0 := by rcases hb with rfl | rfl <;> rfl
    rw [← List.singleton_append, value_append, ih hmore, hfirst, Nat.zero_mul]

/-- Zeros in front of a number change nothing. -/
theorem eval_zeros_append {zeros : List UInt8} (h : Zeros zeros)
    (hrun : ∃ b ∈ run, b ≠ Byte.underscore) : eval base (zeros ++ run) = eval base run := by
  have hvalue : value base.radix (zeros ++ run) = value base.radix run := by
    rw [value_append, h.value, Nat.zero_mul, Nat.zero_add]
  have hclean : Clean base (zeros ++ run) ↔ Clean base run := by
    rw [clean_append_iff, and_iff_right h.clean]
  rw [eval_eq, eval_eq]
  by_cases hrunClean : Clean base run
  · obtain ⟨b, hb, hne⟩ := hrun
    have hsome : digitsOf run ≠ [] :=
      mt (digitsOf_eq_nil_iff hrunClean).1 fun hall => hne (hall b hb)
    have hmore : digitsOf (zeros ++ run) ≠ [] := by
      rw [digitsOf_append]
      exact List.append_ne_nil_of_right_ne_nil _ hsome
    rw [if_neg (not_not_intro (hclean.2 hrunClean)), if_neg (not_not_intro hrunClean),
      if_neg hmore, if_neg hsome, hvalue]
  · rw [if_pos (mt hclean.1 hrunClean), if_pos hrunClean]

end Outcome

/-- **A run comes to its exact value**, or to what is wrong with it, and no word is too small on the way.
Wherever in a run its reading has come to, the next digit fits. What the reading comes to is told by
the bytes of the run and its value, without a bound: a byte that is no digit of the base goes before
all else, and then a value that is too large, which no more bytes make small again. Zeros in front
of a number have no say. -/
theorem eval_exact (base : Base) (run : List UInt8) :
    (∀ front b rest t digit, run = front ++ b :: rest → tally base front = .ok t →
      digit? base b = some digit → t.Fits base digit) ∧
    eval base run = tally base run >>= Tally.outcome ∧
    Exact base run (eval base run) ∧
    (∀ more, eval base run = .error .tooLarge →
      eval base (run ++ more) = .error .tooLarge ∨ eval base (run ++ more) = .error .badDigit) ∧
    ∀ zeros, Zeros zeros → (∃ b ∈ run, b ≠ Byte.underscore) →
      eval base (zeros ++ run) = eval base run := by
  refine ⟨?_, eval_eq_tally base run, exact_eval base run,
    fun more h => eval_append_of_tooLarge h more, fun _ => eval_zeros_append⟩
  intro front b rest t digit _ ht hdigit
  rcases tally_cases base front with ⟨-, t', ht', hcounts⟩ | ⟨-, herror⟩
  · rw [ht] at ht'
    cases ht'
    exact hcounts.fits (digit?_eq_some_iff.1 hdigit).2
  · rw [ht] at herror
    contradiction

/-- Nine hexadecimal digits, with an underscore among them and zeros in front. -/
theorem eval_exact_tooLarge :
    let run : List UInt8 := [Byte.upperF, Byte.underscore] ++ List.replicate 8 Byte.zero
    let zeros : List UInt8 := [Byte.zero, Byte.underscore]
    Zeros zeros ∧ (∃ b ∈ run, b ≠ Byte.underscore) ∧ eval .hexadecimal run = .error .tooLarge ∧
      eval .hexadecimal (zeros ++ run) = .error .tooLarge ∧
      eval .hexadecimal (run ++ [Byte.upperH]) = .error .badDigit ∧
      (∃ t, tally .hexadecimal (run.take 9) = .ok t ∧ t.Fits .hexadecimal 0) := by
  intro run zeros
  have hzeros : Zeros zeros := by simp [Zeros, zeros]
  have hsome : ∃ b ∈ run, b ≠ Byte.underscore := ⟨Byte.upperF, by decide, by decide⟩
  obtain ⟨hfits, -, hexact, hmore, hfront⟩ := eval_exact .hexadecimal run
  have hlarge : eval .hexadecimal run = .error .tooLarge := hexact.tooLarge.2 (by decide +kernel)
  have hbad : eval .hexadecimal (run ++ [Byte.upperH]) ≠ .error .tooLarge := by decide
  have htally : ∃ t, tally .hexadecimal (run.take 9) = .ok t := ⟨_, rfl⟩
  obtain ⟨t, ht⟩ := htally
  exact ⟨hzeros, hsome, hlarge, (hfront zeros hzeros hsome).trans hlarge,
    (hmore _ hlarge).resolve_left hbad, t, ht, hfits _ _ [] t 0 rfl ht rfl⟩

end AsmScan.Numeral
