import AsmScan.Base

/-! Bytes in capitals.

Only letters have a capital of their own, and a letter and its capital are alike in
all that words and numbers are made of (`class_toUpper`). A byte that is no letter
can so be looked for in a text or in its copy in capitals (`toUpper_eq_iff`). -/
namespace AsmScan.Byte

/-- What holds of all values below 256 holds of every byte. -/
theorem forall_of_lt {p : UInt8 → Prop} (h : ∀ n < 256, p n.toUInt8) (b : UInt8) : p b := by
  have hb : b.toNat.toUInt8 = b := UInt8.ofNat_toNat
  exact hb ▸ h b.toNat b.toNat_lt

/-- A byte that has a case. -/
def isLetter (b : UInt8) : Bool := isUpper b || isLower b

/-- What a letter is in a word or a number does not depend on its case. -/
theorem class_toUpper (b : UInt8) :
    toUpper (toUpper b) = toUpper b ∧ isUpper (toUpper b) = isLetter b ∧
      isNameStart (toUpper b) = isNameStart b ∧ isDigit (toUpper b) = isDigit b ∧
      digitValue? (toUpper b) = digitValue? b := by
  revert b
  apply forall_of_lt
  decide +kernel

theorem toUpper_toUpper (b : UInt8) : toUpper (toUpper b) = toUpper b := (class_toUpper b).1

theorem isUpper_toUpper (b : UInt8) : isUpper (toUpper b) = isLetter b := (class_toUpper b).2.1

theorem isNameStart_toUpper (b : UInt8) : isNameStart (toUpper b) = isNameStart b :=
  (class_toUpper b).2.2.1

theorem isDigit_toUpper (b : UInt8) : isDigit (toUpper b) = isDigit b := (class_toUpper b).2.2.2.1

theorem digitValue?_toUpper (b : UInt8) : digitValue? (toUpper b) = digitValue? b :=
  (class_toUpper b).2.2.2.2

theorem toUpper_of_isLower_false {b : UInt8} (h : isLower b = false) : toUpper b = b := by
  simp [toUpper, h]

/-! ### Bytes without case -/

/-- Only a letter has another byte for its other case. -/
theorem eq_of_toUpper_eq {b sign : UInt8} (h : toUpper b = sign) (hsign : isUpper sign = false) :
    b = sign := by
  have hletter : isLetter b = false := by rw [← isUpper_toUpper, h, hsign]
  rw [← h, toUpper_of_isLower_false (Bool.or_eq_false_iff.1 hletter).2]

/-- A byte that is no letter is the capital of no other. -/
theorem toUpper_eq_iff {b : UInt8} (sign : UInt8) (h : isLetter sign = false) :
    toUpper b = sign ↔ b = sign := by
  obtain ⟨hupper, hlower⟩ := Bool.or_eq_false_iff.1 h
  constructor
  · exact fun hb => eq_of_toUpper_eq hb hupper
  · rintro rfl
    exact toUpper_of_isLower_false hlower

theorem beq_toUpper {b : UInt8} (sign : UInt8) (h : isLetter sign = false) :
    (toUpper b == sign) = (b == sign) := by
  rw [Bool.eq_iff_iff, beq_iff_eq, beq_iff_eq]
  exact toUpper_eq_iff sign h

/-! ### Texts in capitals -/

theorem eq_of_map_toUpper_eq {text signs : List UInt8}
    (h : text.map toUpper = signs.map toUpper) (hsigns : ∀ b ∈ signs, isUpper (toUpper b) = false) :
    text = signs := by
  induction signs generalizing text with
  | nil => exact List.map_eq_nil_iff.1 h
  | cons sign signs ih =>
    obtain ⟨b, more, rfl, hb, hmore⟩ := List.map_eq_cons_iff.1 h
    obtain ⟨hsign, hsigns⟩ := List.forall_mem_cons.1 hsigns
    have hsame : sign = toUpper sign := eq_of_toUpper_eq rfl hsign
    rw [eq_of_toUpper_eq hb hsign, ← hsame, ih hmore hsigns]

theorem map_toUpper_toUpper (bytes : List UInt8) :
    (bytes.map toUpper).map toUpper = bytes.map toUpper := by
  rw [List.map_map]
  exact List.map_congr_left fun b _ => toUpper_toUpper b

/-- A run of bytes of a class without case. -/
theorem takeWhile_toUpper {p : UInt8 → Bool} (hp : ∀ b, p (toUpper b) = p b) (bytes : List UInt8) :
    (bytes.map toUpper).takeWhile p = (bytes.takeWhile p).map toUpper := by
  rw [List.takeWhile_map]
  congr 2
  exact funext hp

/-- Among capitals a byte that is no letter stands where it stood before. -/
theorem mem_toUpper_iff (sign : UInt8) (h : isLetter sign = false) {bytes : List UInt8} :
    sign ∈ bytes.map toUpper ↔ sign ∈ bytes := by
  simp only [List.mem_map, toUpper_eq_iff sign h, exists_eq_right]

theorem head?_toUpper_iff (sign : UInt8) (h : isLetter sign = false) {bytes : List UInt8} :
    (bytes.map toUpper).head? = some sign ↔ bytes.head? = some sign := by
  cases bytes with
  | nil => rfl
  | cons b more => simpa using toUpper_eq_iff sign h

end AsmScan.Byte
