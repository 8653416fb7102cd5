import AsmScan.Lexeme.Number
import AsmScan.Lexeme.Word
import AsmScan.Proofs.Byte
import AsmScan.Text
import Mathlib.Data.Bool.AllAny

/-! What names and numbers are made of.

The letters, the digits and the blanks are listed, and with them the bytes that go on a name and
those that go on a number. A scanner compares bytes instead of looking them up, which comes to the
same (`isNameByte_iff`, `isNumberByte_iff`). -/
namespace AsmScan

namespace Byte

def letters : List UInt8 := utf8 "ABCDEFGHIJKLMNOPQRSTUVWXYZabcdefghijklmnopqrstuvwxyz"

def digits : List UInt8 := utf8 "0123456789"

def blanks : List UInt8 := [space, tab, verticalTab, formFeed, carriageReturn]

section Bytes
variable {b : UInt8}

/-- Bytes that stand next to each other are told by the first and by how many there are. -/
theorem mem_span (first count : Nat) (h : first + count ≤ 256) :
    b ∈ (List.range' first count).map Nat.toUInt8 ↔ first ≤ b.toNat ∧ b.toNat < first + count := by
  have hsize : UInt8.size = 256 := rfl
  simp only [List.mem_map, List.mem_range'_1]
  constructor
  · rintro ⟨n, hn, rfl⟩
    rwa [UInt8.toNat_ofNat_of_lt' (by omega)]
  · exact fun hb => ⟨b.toNat, hb, UInt8.ofNat_toNat⟩

theorem isNameStart_iff : isNameStart b = true ↔ b ∈ letters ∨ b = underscore := by
  have hletters : letters = (List.range' 0x41 26).map Nat.toUInt8 ++
      (List.range' 0x61 26).map Nat.toUInt8 := by decide +kernel
  simp only [isNameStart, isUpper, isLower, Bool.or_eq_true, Bool.and_eq_true, decide_eq_true_eq,
    beq_iff_eq, UInt8.le_iff_toNat_le, hletters, List.mem_append,
    mem_span 0x41 26 (by decide), mem_span 0x61 26 (by decide)]
  have hupper : upperA.toNat = 0x41 ∧ upperZ.toNat = 0x5A := ⟨rfl, rfl⟩
  have hlower : lowerA.toNat = 0x61 ∧ lowerZ.toNat = 0x7A := ⟨rfl, rfl⟩
  refine or_congr_left ?_
  omega

theorem isDigit_iff : isDigit b = true ↔ b ∈ digits := by
  have hdigits : digits = (List.range' 0x30 10).map Nat.toUInt8 := by decide +kernel
  simp only [isDigit, Bool.and_eq_true, decide_eq_true_eq, UInt8.le_iff_toNat_le, hdigits,
    mem_span 0x30 10 (by decide)]
  have hends : zero.toNat = 0x30 ∧ nine.toNat = 0x39 := ⟨rfl, rfl⟩
  omega

theorem isBlank_iff : isBlank b = true ↔ b ∈ blanks := by
  simp only [isBlank, blanks, Bool.or_eq_true, beq_iff_eq, List.mem_cons, List.not_mem_nil,
    or_false, or_assoc]

end Bytes

/-- The letters that mark a base behind a number or within it, in either case. -/
theorem mem_marks :
    (∀ b, b ∈ utf8 "hH" ↔ toUpper b = upperH) ∧ (∀ b, b ∈ utf8 "xX" ↔ toUpper b = upperX) ∧
      ∀ b, b ∈ utf8 "oO" ↔ toUpper b = upperO := by
  refine ⟨?_, ?_, ?_⟩ <;>
  · apply forall_of_lt
    decide +kernel

end Byte

/-- The digits of all bases, with what each of them is worth: 0 to 9, A to F and a to f. -/
def hexDigits : List (UInt8 × UInt8) :=
  [ (0x30, 0), (0x31, 1), (0x32, 2), (0x33, 3), (0x34, 4),
    (0x35, 5), (0x36, 6), (0x37, 7), (0x38, 8), (0x39, 9),
    (0x41, 10), (0x42, 11), (0x43, 12), (0x44, 13), (0x45, 14), (0x46, 15),
    (0x61, 10), (0x62, 11), (0x63, 12), (0x64, 13), (0x65, 14), (0x66, 15) ]

theorem digitValue?_eq_some_iff {b d : UInt8} : digitValue? b = some d ↔ (b, d) ∈ hexDigits := by
  have hlisted : ∀ b, (digitValue? b).all (fun d => (b, d) ∈ hexDigits) = true :=
    Byte.forall_of_lt (by decide +kernel)
  -- The list is gone through: to decide this as it stands would go through all pairs of bytes.
  have hfound : ∀ entry ∈ hexDigits, digitValue? entry.1 = some entry.2 :=
    List.all_iff_forall_prop.1 (by decide)
  refine ⟨fun h => ?_, hfound (b, d)⟩
  have hb := hlisted b
  rw [h] at hb
  exact of_decide_eq_true hb

theorem digitValue?_eq_none_iff {b : UInt8} :
    digitValue? b = none ↔ b ∉ hexDigits.map Prod.fst := by
  simp only [Option.eq_none_iff_forall_ne_some, ne_eq, digitValue?_eq_some_iff, List.mem_map,
    Prod.exists, exists_and_right, exists_eq_right, not_exists]

/-- No digit is listed twice. -/
theorem lookup_hexDigits {b d : UInt8} : hexDigits.lookup b = some d ↔ (b, d) ∈ hexDigits := by
  have hfound : ∀ entry ∈ hexDigits, hexDigits.lookup entry.1 = some entry.2 :=
    List.all_iff_forall_prop.1 (by decide)
  refine ⟨fun h => ?_, hfound (b, d)⟩
  obtain ⟨front, back, hsplit, -⟩ := List.lookup_eq_some_iff.1 h
  rw [hsplit]
  exact List.mem_append_right _ List.mem_cons_self

namespace Lexeme

/-- A byte that goes on a name. -/
def GoesOnName (fs : Features) (b : UInt8) : Prop :=
  b ∈ Byte.letters ∨ b = Byte.underscore ∨ b ∈ Byte.digits ∨
    (b = Byte.atSign ∧ fs.atInIdentifiers = true) ∨
    (b = Byte.dollar ∧ fs.dollarInIdentifiers = true)

/-- A byte that goes on a number, whatever its base. -/
def GoesOnNumber (fs : Features) (b : UInt8) : Prop :=
  (∃ d, (b, d) ∈ hexDigits) ∨ (b = Byte.underscore ∧ fs.underlineInNumbers = true)

section Alphabets
variable {fs : Features} {b : UInt8}

theorem isNameByte_iff : isNameByte fs b = true ↔ GoesOnName fs b := by
  simp only [isNameByte, GoesOnName, Bool.or_eq_true, Bool.and_eq_true, beq_iff_eq,
    Byte.isNameStart_iff, Byte.isDigit_iff, or_assoc]

theorem startsName_iff {bytes : List UInt8} :
    startsName bytes = true ↔ ∃ b ∈ bytes.head?, b ∈ Byte.letters ∨ b = Byte.underscore := by
  cases bytes <;> simp [startsName, Byte.isNameStart_iff]

theorem startsName_eq_false_iff {bytes : List UInt8} :
    startsName bytes = false ↔ ∀ b ∈ bytes.head?, b ∉ Byte.letters ∧ b ≠ Byte.underscore := by
  simp only [← Bool.not_eq_true, startsName_iff, not_exists, not_and, not_or]

theorem isNameByte_eq_false_iff : isNameByte fs b = false ↔ ¬ GoesOnName fs b := by
  rw [← isNameByte_iff, Bool.not_eq_true]

theorem isSome_digitValue?_iff : (digitValue? b).isSome = true ↔ ∃ d, (b, d) ∈ hexDigits := by
  rw [Option.isSome_iff_exists]
  exact exists_congr fun _ => digitValue?_eq_some_iff

theorem exists_mem_hexDigits (h : b ∈ Byte.digits) : ∃ d, (b, d) ∈ hexDigits := by
  rw [← isSome_digitValue?_iff, digitValue?, if_pos (Byte.isDigit_iff.2 h)]
  rfl

theorem isNumberByte_iff : isNumberByte fs b = true ↔ GoesOnNumber fs b := by
  simp only [isNumberByte, GoesOnNumber, Bool.or_eq_true, Bool.and_eq_true, beq_iff_eq,
    isSome_digitValue?_iff]

theorem isNumberByte_eq_false_iff : isNumberByte fs b = false ↔ ¬ GoesOnNumber fs b := by
  rw [← isNumberByte_iff, Bool.not_eq_true]

end Alphabets
end Lexeme
end AsmScan
