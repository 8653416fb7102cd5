import AsmScan.Base
import AsmScan.Text

/-! Numbers as they are written.

A written number is a marker and a run of digits (`utf8_format`). The run is built as
`Nat.toDigits` builds it, the last digit behind those of the quotient (`digits_append`),
and what is said of runs is an induction along that: they have digits of their base only
(`digit_of_mem_digits`). -/
namespace AsmScan

theorem utf8_append (a b : String) : utf8 (a ++ b) = utf8 a ++ utf8 b := by
  simp [utf8]

theorem utf8_ofList (cs : List Char) :
    utf8 (String.ofList cs) = cs.flatMap String.utf8EncodeChar := by
  rw [utf8, String.toUTF8_eq_toByteArray, String.toByteArray_ofList, List.utf8Encode]
  simp

namespace Base

theorem radix_bounds (base : Base) : 1 < base.radix ∧ base.radix ≤ 16 := by
  cases base <;> decide

theorem radix_injective {a b : Base} (h : a.radix = b.radix) : a = b := by
  revert h
  cases a <;> cases b <;> decide

/-- The run of digits that a value is written with. -/
def digits (base : Base) (value : Nat) : List UInt8 :=
  utf8 (String.ofList ((Nat.toDigits base.radix value).map Char.toUpper))

/-- The byte of a single digit. -/
def digitByte (d : Nat) : UInt8 := d.digitChar.toUpper.toNat.toUInt8

variable (base : Base) {value : Nat}

/-- Up to ten, digits have no capitals but themselves. -/
theorem map_toUpper_toDigits {radix : Nat} (hpos : 0 < radix) (h : radix ≤ 10) (value : Nat) :
    (Nat.toDigits radix value).map Char.toUpper = Nat.toDigits radix value := by
  refine (List.map_congr_left fun c hc => ?_).trans (List.map_id _)
  have hdigit : c.isDigit = true := Nat.isDigit_of_mem_toDigits hpos h hc
  have hlower : ¬ ('a'.val ≤ c.val ∧ c.val ≤ 'z'.val) := by
    have hnine : c.val ≤ '9'.val := by simpa using (Bool.and_eq_true_iff.1 hdigit).2
    exact fun hletter => absurd (UInt32.le_trans hletter.1 hnine) (by decide)
  exact dif_neg hlower

/-- The digits that a value is written with are those of its base. -/
theorem format_eq (value : Nat) :
    base.format value =
      base.marker ++ String.ofList ((Nat.toDigits base.radix value).map Char.toUpper) := by
  refine congrArg (base.marker ++ String.ofList ·) ?_
  cases base with
  | binary | octal | decimal => exact (map_toUpper_toDigits (by decide) (by decide) value).symm
  | hexadecimal => rfl

theorem utf8_format (value : Nat) :
    utf8 (base.format value) = utf8 base.marker ++ base.digits value := by
  rw [format_eq, utf8_append, digits]

theorem utf8_digit {d : Nat} (h : d < base.radix) :
    String.utf8EncodeChar d.digitChar.toUpper = [digitByte d] := by
  have hall : ∀ d < 16, String.utf8EncodeChar d.digitChar.toUpper = [digitByte d] := by decide
  exact hall d (Nat.lt_of_lt_of_le h base.radix_bounds.2)

theorem digits_of_lt (h : value < base.radix) : base.digits value = [digitByte value] := by
  rw [digits, utf8_ofList, Nat.toDigits_of_lt_base h, List.map_singleton, List.flatMap_singleton,
    utf8_digit base h]

/-- The last digit stands behind the others. -/
theorem digits_append {m d : Nat} (hm : 0 < m) (hd : d < base.radix) :
    base.digits (base.radix * m + d) = base.digits m ++ [digitByte d] := by
  simp only [digits, utf8_ofList]
  rw [← Nat.toDigits_append_toDigits base.radix_bounds.1 hm hd, Nat.toDigits_of_lt_base hd,
    List.map_append, List.flatMap_append, List.map_singleton, List.flatMap_singleton,
    utf8_digit base hd]

theorem digits_ne_nil : base.digits value ≠ [] := by
  induction value using Nat.base_induction base.radix base.radix_bounds.1 with
  | single v hv => simp [digits_of_lt base hv]
  | digit m d hd hm ih => simp [digits_append base hm hd]

/-- The run has digits of its base only. -/
theorem digit_of_mem_digits {b : UInt8} (h : b ∈ base.digits value) :
    ∃ d < base.radix, b = digitByte d := by
  induction value using Nat.base_induction base.radix base.radix_bounds.1 with
  | single v hv =>
    rw [digits_of_lt base hv, List.mem_singleton] at h
    exact ⟨v, hv, h⟩
  | digit m d hd hm ih =>
    rw [digits_append base hm hd, List.mem_append, List.mem_singleton] at h
    rcases h with h | h
    · exact ih h
    · exact ⟨d, hd, h⟩

end Base
end AsmScan
