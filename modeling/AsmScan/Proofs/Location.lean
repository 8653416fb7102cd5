import AsmScan.Location
import Mathlib.Data.List.DropRight

/-! Lines and columns.

Past some bytes, the line has grown by the line feeds among them, and the column is
counted from the last of these, or from where it was if there is none (`past_eq`).
Every byte leads to a later location (`compare_past`), so a location never comes back. -/
namespace AsmScan.Location

/-! ### Where some bytes lead to -/

theorem past_append (l : Location) (a b : List UInt8) : l.past (a ++ b) = (l.past a).past b :=
  List.foldl_append

theorem past_concat (l : Location) (bytes : List UInt8) (b : UInt8) :
    l.past (bytes ++ [b]) = (l.past bytes).advance b :=
  past_append l bytes [b]

theorem line_past (l : Location) (bytes : List UInt8) :
    (l.past bytes).line = l.line + bytes.count Byte.lineFeed := by
  induction bytes using List.reverseRecOn with
  | nil => rfl
  | append_singleton bytes b ih =>
    rw [past_concat, advance, List.count_append, ← Nat.add_assoc, ← ih]
    split
    next hb => rw [hb, List.count_singleton_self]
    next hb =>
      have hfeed : Byte.lineFeed ∉ [b] := by simpa using Ne.symm hb
      rw [List.count_eq_zero_of_not_mem hfeed]
      rfl

/-- The column is counted from the last line feed. -/
theorem column_past (l : Location) (bytes : List UInt8) :
    (l.past bytes).column =
      if Byte.lineFeed ∈ bytes then 1 + (bytes.rtakeWhile (· != Byte.lineFeed)).length
      else l.column + bytes.length := by
  induction bytes using List.reverseRecOn with
  | nil => rfl
  | append_singleton bytes b ih =>
    rw [past_concat, advance]
    by_cases hb : b = Byte.lineFeed
    · subst hb
      rw [if_pos rfl, if_pos List.mem_concat_self, List.rtakeWhile_concat_neg _ _ _ (by decide)]
      rfl
    · have hmem : Byte.lineFeed ∈ bytes ++ [b] ↔ Byte.lineFeed ∈ bytes := by
        simp [Ne.symm hb]
      rw [if_neg hb, List.rtakeWhile_concat_pos _ _ _ (by simpa using hb), if_congr hmem rfl rfl]
      show (l.past bytes).column + 1 = _
      rw [ih, List.length_append, List.length_append]
      split <;> rfl

/-- **Past some bytes** stands the location that their line feeds tell. -/
theorem past_eq (l : Location) (bytes : List UInt8) :
    l.past bytes =
      ⟨l.line + bytes.count Byte.lineFeed,
        if Byte.lineFeed ∈ bytes then 1 + (bytes.rtakeWhile (· != Byte.lineFeed)).length
        else l.column + bytes.length⟩ := by
  rw [← line_past, ← column_past]

/-! ### Earlier and later locations -/

theorem compare_eq_lt {l m : Location} :
    compare l m = .lt ↔ l.line < m.line ∨ l.line = m.line ∧ l.column < m.column := by
  show (compare l.line m.line).then (compare l.column m.column) = .lt ↔ _
  rw [Ordering.then_eq_lt, Nat.compare_eq_lt, Nat.compare_eq_eq, Nat.compare_eq_lt]

theorem ne_of_compare {l m : Location} (h : compare l m = .lt) : l ≠ m := by
  rintro rfl
  rw [compare_eq_lt] at h
  omega

/-- Every byte leads to a later location. -/
theorem compare_advance (l : Location) (b : UInt8) : compare l (l.advance b) = .lt := by
  rw [compare_eq_lt, advance]
  split
  · exact .inl (Nat.lt_succ_self _)
  · exact .inr ⟨rfl, Nat.lt_succ_self _⟩

theorem compare_trans {l m n : Location} (hlm : compare l m = .lt) (hmn : compare m n = .lt) :
    compare l n = .lt := by
  rw [compare_eq_lt] at *
  omega

theorem compare_past (l : Location) {bytes : List UInt8} (h : bytes ≠ []) :
    compare l (l.past bytes) = .lt := by
  induction bytes generalizing l with
  | nil => exact absurd rfl h
  | cons b more ih =>
    by_cases hmore : more = []
    · subst hmore
      exact l.compare_advance b
    · exact compare_trans (l.compare_advance b) (ih (l.advance b) hmore)

end AsmScan.Location
