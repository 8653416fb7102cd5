import AsmScan.Problem
import AsmScan.Proofs.Lexeme.Alphabet
import AsmScan.Proofs.Numeral
import Mathlib.Data.Nat.Digits.Defs

/-! What a run of digits is worth.

The value of a run is positional and has no bound (`value`). The sum that is kept while a
run is read grows no further than one past the limit: it is the lesser of the two, after
every digit (`toNat_extend`) and so after all of them (`toNat_foldl_extend`). That is
enough to tell which values are too large, so that the bytes of a run and its value tell
what comes of it (`eval_eq`), however long it is. `judges_number` says it of numbers. -/
namespace AsmScan.Numeral

/-! ### The value of a run -/

/-- The digits of a run, the highest first. What is no digit is left out. -/
def digitsOf (run : List UInt8) : List UInt8 := run.filterMap (hexDigits.lookup ·)

/-- The value of a run by the places of its digits. -/
def value (radix : Nat) (run : List UInt8) : Nat :=
  Nat.ofDigits radix ((digitsOf run).map UInt8.toNat).reverse

/-- The value of a run is had digit by digit from the highest on. -/
theorem value_eq_foldl (radix : Nat) (run : List UInt8) :
    value radix run = (digitsOf run).foldl (fun n d => n * radix + d.toNat) 0 := by
  rw [value, Nat.ofDigits_eq_foldr, List.foldr_reverse, List.foldl_map]
  simp only [Nat.cast_id, Nat.add_comm, Nat.mul_comm]

theorem digitsOf_append (a b : List UInt8) : digitsOf (a ++ b) = digitsOf a ++ digitsOf b :=
  List.filterMap_append

/-- What stands in front of a run is worth more by a place for each of its digits. -/
theorem value_append (radix : Nat) (a b : List UInt8) :
    value radix (a ++ b) = value radix a * radix ^ (digitsOf b).length + value radix b := by
  simp only [value, digitsOf_append, List.map_append, List.reverse_append, Nat.ofDigits_append,
    List.length_reverse, List.length_map]
  rw [Nat.add_comm, Nat.mul_comm]

/-! ### The sum that is kept -/

/-- The sum that is kept for a value: itself up to one past the limit, and no more. -/
def capped (n : Nat) : Nat := min n (limit.toNat + 1)

/-- What is kept tells whether the value is too large. -/
theorem lt_capped_iff (n : Nat) : limit.toNat < capped n ↔ limit.toNat < n := by
  unfold capped
  omega

theorem capped_of_le {n : Nat} (h : n ≤ limit.toNat) : capped n = n :=
  Nat.min_eq_left (Nat.le_succ_of_le h)

/-- What lies past the limit stays there with every digit. -/
theorem capped_extend {r : Nat} (hr : 0 < r) (n d : Nat) :
    capped (capped n * r + d) = capped (n * r + d) := by
  unfold capped
  rcases Nat.le_total n (limit.toNat + 1) with h | h
  · rw [Nat.min_eq_left h]
  · -- Both sides are past the limit, since a digit more never makes a value smaller.
    have hpast : limit.toNat + 1 ≤ (limit.toNat + 1) * r := Nat.le_mul_of_pos_right _ hr
    have hmore : (limit.toNat + 1) * r ≤ n * r := Nat.mul_le_mul_right r h
    rw [Nat.min_eq_right h, Nat.min_eq_right (by omega), Nat.min_eq_right (by omega)]

/-- The sum and the value grow by a digit alike. -/
theorem toNat_extend {base : Base} {sum : UInt64} {n : Nat} {d : UInt8} (hd : d.toNat < base.radix)
    (h : sum.toNat = capped n) : (extend base sum d).toNat = capped (n * base.radix + d.toNat) := by
  have hlimit : limit.toNat = 0xFFFFFFFF := rfl
  have hradix := base.radix_bounds
  have hsum : sum.toNat ≤ limit.toNat + 1 := h ▸ Nat.min_le_right ..
  have hlonger : (sum * base.radix.toUInt64 + d.toUInt64).toNat = sum.toNat * base.radix + d.toNat := by
    have hproduct : sum.toNat * base.radix ≤ (limit.toNat + 1) * 16 := Nat.mul_le_mul hsum hradix.2
    have hword : base.radix.toUInt64.toNat = base.radix := Nat.mod_eq_of_lt (by omega)
    rw [UInt64.toNat_add, UInt64.toNat_mul, UInt8.toNat_toUInt64, hword]
    omega
  rw [← capped_extend (Nat.lt_trans Nat.one_pos hradix.1) n, ← h, ← hlonger]
  unfold extend capped
  dsimp only
  split
  next hpast =>
    rw [UInt64.lt_iff_toNat_lt] at hpast
    rw [Nat.min_eq_right hpast]
    rfl
  next hfits =>
    rw [UInt64.lt_iff_toNat_lt] at hfits
    rw [Nat.min_eq_left (by omega)]

theorem toNat_foldl_extend {base : Base} {ds : List UInt8} (hds : ∀ d ∈ ds, d.toNat < base.radix)
    {sum : UInt64} {n : Nat} (h : sum.toNat = capped n) :
    (ds.foldl (extend base) sum).toNat =
      capped (ds.foldl (fun n d => n * base.radix + d.toNat) n) := by
  induction ds generalizing sum n with
  | nil => exact h
  | cons d ds ih =>
    refine ih (fun d hd => hds d (List.mem_cons_of_mem _ hd)) ?_
    exact toNat_extend (hds d (List.mem_cons_self ..)) h

/-! ### The digits of a run -/

/-- A byte that is a digit, and not too large for the base. -/
def IsDigit (base : Base) (b : UInt8) : Prop := ∃ d, (b, d) ∈ hexDigits ∧ d.toNat < base.radix

/-- A run that has digits of the base only, and underscores. -/
def Clean (base : Base) (run : List UInt8) : Prop := ∀ b ∈ run, b ≠ Byte.underscore → IsDigit base b

section Digits
variable {base : Base} {run : List UInt8}

theorem digit?_eq_some_iff {b d : UInt8} :
    digit? base b = some d ↔ (b, d) ∈ hexDigits ∧ d.toNat < base.radix := by
  rw [digit?, Option.filter_eq_some_iff, decide_eq_true_eq, digitValue?_eq_some_iff]

theorem isSome_digit?_iff {b : UInt8} : (digit? base b).isSome = true ↔ IsDigit base b := by
  rw [Option.isSome_iff_exists]
  exact exists_congr fun _ => digit?_eq_some_iff

instance (base : Base) (b : UInt8) : Decidable (IsDigit base b) :=
  decidable_of_iff _ isSome_digit?_iff

instance (base : Base) (run : List UInt8) : Decidable (Clean base run) :=
  inferInstanceAs (Decidable (∀ b ∈ run, b ≠ Byte.underscore → IsDigit base b))

theorem digitsOf_cons {b d : UInt8} (h : (b, d) ∈ hexDigits) (run : List UInt8) :
    digitsOf (b :: run) = d :: digitsOf run := List.filterMap_cons_some (lookup_hexDigits.2 h)

theorem clean_append_iff {a b : List UInt8} : Clean base (a ++ b) ↔ Clean base a ∧ Clean base b :=
  List.forall_mem_append

/-- All digits are found if the base has them. -/
theorem mapM_digit?_of_clean (h : Clean base run) :
    (run.filter (· != Byte.underscore)).mapM (digit? base) = some (digitsOf run) := by
  induction run with
  | nil => rfl
  | cons b run ih =>
    obtain ⟨hb, htail⟩ := List.forall_mem_cons.1 h
    by_cases hunderscore : b = Byte.underscore
    · subst hunderscore
      exact ih htail
    · obtain ⟨d, hd, hlt⟩ := hb hunderscore
      rw [digitsOf_cons hd, List.filter_cons_of_pos (by simpa using hunderscore), List.mapM_cons,
        digit?_eq_some_iff.2 ⟨hd, hlt⟩, ih htail]
      rfl

/-- One byte that is no digit of the base is enough to find none. -/
theorem mapM_digit?_of_not_clean (h : ¬ Clean base run) :
    (run.filter (· != Byte.underscore)).mapM (digit? base) = none := by
  induction run with
  | nil => exact absurd (fun _ hb => absurd hb List.not_mem_nil) h
  | cons b run ih =>
    by_cases hunderscore : b = Byte.underscore
    · subst hunderscore
      exact ih fun hclean => h (List.forall_mem_cons.2 ⟨fun hne => absurd rfl hne, hclean⟩)
    · rw [List.filter_cons_of_pos (by simpa using hunderscore), List.mapM_cons]
      cases hd : digit? base b with
      | none => rfl
      | some d =>
        have hdigit : IsDigit base b := isSome_digit?_iff.1 (by rw [hd]; rfl)
        rw [ih fun hclean => h (List.forall_mem_cons.2 ⟨fun _ => hdigit, hclean⟩)]
        rfl

theorem mem_digitsOf {d : UInt8} : d ∈ digitsOf run ↔ ∃ b ∈ run, (b, d) ∈ hexDigits := by
  simp only [digitsOf, List.mem_filterMap, lookup_hexDigits]

/-- In a clean run all that is no underscore is a digit. -/
theorem digitsOf_eq_nil_iff (h : Clean base run) :
    digitsOf run = [] ↔ ∀ b ∈ run, b = Byte.underscore := by
  rw [digitsOf, List.filterMap_eq_nil_iff]
  refine forall₂_congr fun b hb => ⟨fun hnone => ?_, ?_⟩
  · by_contra hne
    obtain ⟨d, hd, -⟩ := h b hb hne
    rw [← lookup_hexDigits, hnone] at hd
    contradiction
  · rintro rfl
    rfl

theorem lt_radix_of_mem_digitsOf (h : Clean base run) : ∀ d ∈ digitsOf run, d.toNat < base.radix := by
  intro d hd
  obtain ⟨b, hb, hvalue⟩ := mem_digitsOf.1 hd
  rw [← lookup_hexDigits] at hvalue
  have hne : b ≠ Byte.underscore := by
    rintro rfl
    contradiction
  obtain ⟨d', hd', hlt⟩ := h b hb hne
  rw [← lookup_hexDigits, hvalue] at hd'
  exact Option.some.inj hd' ▸ hlt

end Digits

/-! ### The outcome -/

section Outcome
variable (base : Base) (run : List UInt8)

theorem toNat_foldl_digitsOf (h : Clean base run) :
    ((digitsOf run).foldl (extend base) 0).toNat = capped (value base.radix run) := by
  rw [value_eq_foldl]
  exact toNat_foldl_extend (lt_radix_of_mem_digitsOf h) rfl

/-- **What comes of a run is told by its bytes and its value**, however long the run and however large
the value. -/
theorem eval_eq :
    eval base run =
      if ¬ Clean base run then .error .badDigit
      else if digitsOf run = [] then .error .noDigits
      else if limit.toNat < value base.radix run then .error .tooLarge
      else .ok (value base.radix run).toUInt64 := by
  unfold eval
  by_cases hclean : Clean base run
  · rw [if_neg (not_not_intro hclean), mapM_digit?_of_clean hclean]
    have hsum := toNat_foldl_digitsOf base run hclean
    cases hds : digitsOf run with
    | nil => rw [if_pos rfl]
    | cons d more =>
      rw [hds] at hsum
      have hpast : limit < (d :: more).foldl (extend base) 0 ↔ limit.toNat < value base.radix run := by
        rw [UInt64.lt_iff_toNat_lt, hsum, lt_capped_iff]
      rw [if_neg (List.cons_ne_nil d more)]
      simp only [hpast]
      split
      · rfl
      next hle =>
        rw [capped_of_le (Nat.le_of_not_lt hle)] at hsum
        exact congrArg Except.ok (hsum ▸ UInt64.ofNat_toNat.symm)
  · rw [if_pos hclean, mapM_digit?_of_not_clean hclean]

end Outcome

/-! ### What comes of a run -/

/-- What a run of digits is worth by the radix of its base, and what is reported about it at a
position. A digit that the base lacks is worse than a value that is too large. -/
inductive Judges (radix : Nat) (run : List UInt8) (pos : Position) : Nat → List Message → Prop where
  | worth : digitsOf run ≠ [] → (∀ d ∈ digitsOf run, d.toNat < radix) →
      value radix run ≤ 0xFFFFFFFF → Judges radix run pos (value radix run) []
  | tooLarge : (∀ d ∈ digitsOf run, d.toNat < radix) → 0xFFFFFFFF < value radix run →
      Judges radix run pos 0 [⟨.error, .integerOverflow, pos, "integer constant too large"⟩]
  | badDigits : (digitsOf run = [] ∨ ∃ d ∈ digitsOf run, radix ≤ d.toNat) →
      Judges radix run pos 0
        [⟨.error, .invalidNumber, pos, s!"invalid digits in base-{radix} number"⟩]

section Judging
variable {fs : Features} (base : Base) {run : List UInt8}

/-- In a run that goes on a number, what is no underscore is a digit, if not one of the base. -/
theorem clean_iff_of_goes (hrun : ∀ b ∈ run, Lexeme.GoesOnNumber fs b) :
    Clean base run ↔ ∀ d ∈ digitsOf run, d.toNat < base.radix := by
  refine ⟨lt_radix_of_mem_digitsOf, fun hdigits b hb hne => ?_⟩
  obtain ⟨d, hd⟩ := (hrun b hb).resolve_right fun hunderscore => hne hunderscore.1
  exact ⟨d, hd, hdigits d (mem_digitsOf.2 ⟨b, hb, hd⟩)⟩

/-- **A run is worth its value**, as an integer constant, unless there is something wrong with it. -/
theorem judges_number (hrun : ∀ b ∈ run, Lexeme.GoesOnNumber fs b) (size : Nat) (h : 0 < size) :
    ∃ (worth : Nat) (problems : List Problem),
      (∀ pos, Judges base.radix run pos worth (problems.map (·.toMessage pos))) ∧
      Lexeme.number base run size h =
        { meaning := .token .intConst (.int worth)
          size
          findings := problems.map (⟨0, ·⟩) } := by
  have hclean := clean_iff_of_goes base hrun
  unfold Lexeme.number
  rw [eval_eq]
  by_cases hdigits : ∀ d ∈ digitsOf run, d.toNat < base.radix
  · rw [if_neg (not_not_intro (hclean.2 hdigits))]
    by_cases hnone : digitsOf run = []
    · rw [if_pos hnone]
      exact ⟨0, [.badDigits base], fun _ => .badDigits (.inl hnone), rfl⟩
    rw [if_neg hnone]
    by_cases hlarge : limit.toNat < value base.radix run
    · rw [if_pos hlarge]
      exact ⟨0, [.integerTooLarge], fun _ => .tooLarge hdigits hlarge, rfl⟩
    · have hle : value base.radix run ≤ limit.toNat := Nat.le_of_not_lt hlarge
      have hvalue : (value base.radix run).toUInt64.toNat = value base.radix run :=
        UInt64.toNat_ofNat_of_lt' (Nat.lt_of_le_of_lt hle (by decide))
      rw [if_neg hlarge]
      dsimp only
      rw [hvalue]
      exact ⟨_, [], fun _ => .worth hnone hdigits hle, rfl⟩
  · have hbad : ∃ d ∈ digitsOf run, base.radix ≤ d.toNat := by
      simpa only [not_forall, Nat.not_lt, exists_prop] using hdigits
    rw [if_pos (mt hclean.1 hdigits)]
    exact ⟨0, [.badDigits base], fun _ => .badDigits (.inr hbad), rfl⟩

end Judging

end AsmScan.Numeral
