import AsmScan.Proofs.Lexeme.Written
import AsmScan.Proofs.Numeral.Format

/-! Values as literals.

What `Base.format` writes is a number in one of the notations, wherever no letter, digit or
underscore follows (`written_format`): the marker is the one that the notation has, and
the digits are a run. So it is read whole, as its value or, if that is too large, as zero
with a finding (`read_format`). Before a gap it is a text that is one token
(`lexes_number`). -/
namespace AsmScan

/-- A text that is empty or begins with a byte that goes on no name. -/
def Unworded (after : List UInt8) : Prop := ∀ b ∈ after.head?, Byte.isWord b = false

theorem Apart.unworded {tail : List UInt8} (h : Apart tail) : Unworded tail := by
  intro b hb
  rcases Byte.stop_cases (h.stopped b hb) with rfl | rfl | rfl | rfl | rfl | rfl | rfl <;> rfl

/-- Where no name goes on, no letter marks the base of what stands in front. -/
theorem Unworded.not_mem {after : List UInt8} (h : Unworded after) {marks : List UInt8}
    (hmarks : marks.all Byte.isWord = true) : ∀ mark ∈ after.head?, mark ∉ marks :=
  fun mark hmark hmem =>
    absurd (List.all_eq_true.1 hmarks mark hmem) (Bool.eq_false_iff.1 (h mark hmark))

namespace Lexeme

/-- What goes on a number goes on a name. -/
theorem isWord_of_goesOnNumber {fs : Features} {b : UInt8} (h : GoesOnNumber fs b) :
    Byte.isWord b = true := by
  have hdigit : ∀ entry ∈ hexDigits, Byte.isWord entry.1 = true :=
    List.all_iff_forall_prop.1 (by decide)
  rcases h with ⟨d, hd⟩ | ⟨rfl, -⟩
  · exact hdigit (b, d) hd
  · rfl

/-! ### The notation -/

section Notation
variable {fs : Features} {after : List UInt8}

theorem run_digits (base : Base) (v : Nat) (h : Unworded after) : Run fs (base.digits v) after := by
  refine ⟨fun b hb => ?_, fun b hb hgoes => ?_⟩
  · obtain ⟨d, hd, -⟩ := Numeral.isDigit_of_mem_digits base v hb
    exact .inl ⟨d, hd⟩
  · exact absurd (isWord_of_goesOnNumber hgoes) (Bool.eq_false_iff.1 (h b hb))

/-- **A value is written in the notation of its base**, with its digits for a run. -/
theorem written_format (base : Base) (v : Nat) (h : Unworded after) :
    Written fs after base.radix (base.digits v) (utf8 (base.format v)) := by
  have hrun : Run fs (base.digits v) after := run_digits base v h
  have hne : base.digits v ≠ [] := base.digits_ne_nil
  obtain ⟨b, more, hdigits⟩ := List.exists_cons_of_ne_nil hne
  have hb : b ∈ base.digits v := hdigits ▸ List.mem_cons_self
  rw [Base.utf8_format]
  cases base with
  | binary =>
    obtain ⟨d, hd, rfl⟩ := Base.digit_of_mem_digits _ hb
    have hall : ∀ d < 2, Base.digitByte d = Byte.zero ∨ Base.digitByte d = Byte.one := by decide
    rw [hdigits] at hrun ⊢
    exact .percent (hall d hd) hrun
  | octal =>
    have hmark : (0x6F : UInt8) ∈ utf8 "oO" := by decide +kernel
    exact .octal hmark hrun
  | decimal =>
    obtain ⟨d, hd, rfl⟩ := Base.digit_of_mem_digits _ hb
    have hall : ∀ d < 10, Base.digitByte d ∈ Byte.digits := by decide +kernel
    have hmarks : (utf8 "hH").all Byte.isWord = true ∧ (utf8 "xX").all Byte.isWord = true ∧
        (utf8 "oO").all Byte.isWord = true := by decide
    obtain ⟨hsuffix, hhex, hoctal⟩ := hmarks
    rw [hdigits] at hrun ⊢
    exact .decimal (hall d hd) hrun (h.not_mem hsuffix) fun _ mark hmark =>
      ⟨h.not_mem hhex mark hmark, h.not_mem hoctal mark hmark⟩
  | hexadecimal =>
    obtain ⟨d, hd, -⟩ := Numeral.isDigit_of_mem_digits _ v hb
    rw [hdigits] at hrun ⊢
    exact .dollar hd hrun

end Notation

/-! ### Reading -/

/-- The digits of a value are worth it, as an integer constant, unless it is too large. -/
theorem number_digits (base : Base) (v size : Nat) (h : 0 < size) :
    number base (base.digits v) size h =
      if v ≤ 0xFFFFFFFF then {meaning := .token .intConst (.int v), size}
      else {meaning := .token .intConst (.int 0), size, findings := [⟨0, .integerTooLarge⟩]} := by
  have hlimit : Numeral.limit.toNat = 0xFFFFFFFF := rfl
  unfold number
  rw [Numeral.eval_digits, hlimit]
  by_cases hle : v ≤ 0xFFFFFFFF
  · have hvalue : v.toUInt64.toNat = v :=
      UInt64.toNat_ofNat_of_lt' (Nat.lt_of_le_of_lt hle (by decide))
    rw [if_neg (Nat.not_lt_of_le hle), if_pos hle]
    dsimp only
    rw [hvalue]
  · rw [if_pos (Nat.lt_of_not_le hle), if_neg hle]

/-- **A value is read back from the literal that it is written as**, whole and no further. -/
theorem read_format (c : Config) (m : Charmap) (base : Base) (v : Nat) :
    ∃ first rest, utf8 (base.format v) = first :: rest ∧ ∀ after, Unworded after →
      read c m first (rest ++ after) =
        number base (base.digits v) (1 + rest.length) (Nat.add_pos_left Nat.one_pos _) := by
  have hwritten (after : List UInt8) (h : Unworded after) :
      Written c.features after base.radix (base.digits v) (utf8 (base.format v)) :=
    written_format base v h
  obtain ⟨-, first, rest, -, htext, -⟩ := read_written m (hwritten [] nofun)
  refine ⟨first, rest, htext, fun after h => ?_⟩
  obtain ⟨base', first', rest', hbase, htext', hread⟩ := read_written m (hwritten after h)
  obtain rfl := Base.radix_injective hbase
  obtain ⟨rfl, rfl⟩ := List.cons.inj (htext.symm.trans htext')
  exact hread

/-- A number may be written in any base. -/
theorem lexes_number {c : Config} {m : Charmap} (base : Base) (value : UInt32) :
    Lexes c m (utf8 (base.format value.toNat)) .intConst (.int value.toNat) := by
  obtain ⟨first, rest, htext, hread⟩ := read_format c m base value.toNat
  refine ⟨first, rest, htext, fun tail htail => ?_⟩
  rw [hread tail htail.unworded, number_digits, if_pos (Nat.le_of_lt_succ value.toNat_lt), htext]
  exact ⟨rfl, Nat.add_comm .., rfl⟩

end Lexeme
end AsmScan
