import AsmScan.Proofs.Numeral.Positional

/-! A value is written with digits that are worth it.

`Base.format` builds a run from its last digit, `value` adds it up from the first on, and
both take a place more for a digit more: so the run that a value is written with is worth
that value (`value_digits`), whatever the size of the value, and only its size can be
wrong with it (`eval_digits`). -/
namespace AsmScan.Numeral
variable (base : Base) (v : Nat)

theorem mem_hexDigits_digitByte {d : Nat} (h : d < base.radix) :
    (Base.digitByte d, d.toUInt8) ∈ hexDigits := by
  have hall : ∀ d < 16, (Base.digitByte d, d.toUInt8) ∈ hexDigits := by decide +kernel
  exact hall d (Nat.lt_of_lt_of_le h base.radix_bounds.2)

theorem toNat_digit {d : Nat} (h : d < base.radix) : d.toUInt8.toNat = d :=
  UInt8.toNat_ofNat_of_lt' (Nat.lt_of_lt_of_le h (Nat.le_trans base.radix_bounds.2 (by decide)))

/-- A value is written with digits of its base alone. -/
theorem isDigit_of_mem_digits {b : UInt8} (h : b ∈ base.digits v) : IsDigit base b := by
  obtain ⟨d, hd, rfl⟩ := base.digit_of_mem_digits h
  exact ⟨_, mem_hexDigits_digitByte base hd, (toNat_digit base hd).symm ▸ hd⟩

theorem clean_digits : Clean base (base.digits v) := fun _ hb _ => isDigit_of_mem_digits base v hb

/-- There is a digit in it, at least. -/
theorem digitsOf_digits_ne_nil : digitsOf (base.digits v) ≠ [] := by
  have hne : base.digits v ≠ [] := base.digits_ne_nil
  obtain ⟨b, more, hdigits⟩ := List.exists_cons_of_ne_nil hne
  obtain ⟨d, hd, -⟩ := isDigit_of_mem_digits base v (hdigits ▸ List.mem_cons_self)
  rw [hdigits, digitsOf_cons hd]
  exact List.cons_ne_nil _ _

/-- A digit more behind a run is worth a place. -/
theorem value_concat (run : List UInt8) {d : Nat} (h : d < base.radix) :
    value base.radix (run ++ [Base.digitByte d]) = base.radix * value base.radix run + d := by
  have hdigit : digitsOf [Base.digitByte d] = [d.toUInt8] :=
    digitsOf_cons (mem_hexDigits_digitByte base h) []
  have hone : value base.radix [Base.digitByte d] = d := by
    rw [value_eq_foldl, hdigit, List.foldl_cons, List.foldl_nil, Nat.zero_mul, Nat.zero_add,
      toNat_digit base h]
  rw [value_append, hone, hdigit, List.length_singleton, Nat.pow_one, Nat.mul_comm]

/-- **The run that a value is written with is worth it.** -/
theorem value_digits : value base.radix (base.digits v) = v := by
  induction v using Nat.base_induction base.radix base.radix_bounds.1 with
  | single d hd =>
    have hnone : value base.radix [] = 0 := rfl
    rw [base.digits_of_lt hd, ← List.nil_append [_], value_concat base [] hd, hnone,
      Nat.mul_zero, Nat.zero_add]
  | digit m d hd hm ih => rw [base.digits_append hm hd, value_concat base _ hd, ih]

/-- A value is read back from the run that it is written with, unless it is too large. -/
theorem eval_digits :
    eval base (base.digits v) =
      if limit.toNat < v then .error .tooLarge else .ok v.toUInt64 := by
  rw [eval_eq, if_neg (not_not_intro (clean_digits base v)),
    if_neg (digitsOf_digits_ne_nil base v), value_digits]

end AsmScan.Numeral
