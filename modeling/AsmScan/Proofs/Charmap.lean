import AsmScan.Charmap

/-! Character maps and their names.

Under the identity every byte stands for itself (`translate_identity`). Two maps have
names, and no others are found under one (`ofName?_name`, `eq_of_ofName?`). -/
namespace AsmScan.Charmap

theorem translate_identity (b : UInt8) : identity.translate b = b :=
  (Vector.getElem_ofFn (f := fun i : Fin 256 => i.val.toUInt8) b.toNat_lt).trans UInt8.ofNat_toNat

theorem identity_ne_petscii : identity ≠ petscii := by
  intro h
  have htarget : identity.translate Byte.lowerA = petscii.translate Byte.lowerA := by rw [h]
  rw [translate_identity] at htarget
  revert htarget
  decide +kernel

/-- The name of one of the two maps. -/
def name (m : Charmap) : String := if m = petscii then "petscii" else "identity"

theorem ofName?_name {m : Charmap} (h : m = identity ∨ m = petscii) : ofName? m.name = some m := by
  rcases h with rfl | rfl
  · rw [name, if_neg identity_ne_petscii, ofName?, if_pos (by decide +kernel)]
  · rw [name, if_pos rfl, ofName?, if_neg (by decide +kernel), if_pos (by decide +kernel)]

/-- No other map is found under a name. -/
theorem eq_of_ofName? {name : String} {m : Charmap} (h : ofName? name = some m) :
    m = identity ∨ m = petscii := by
  unfold ofName? at h
  dsimp only at h
  split at h
  · exact .inl (Option.some.inj h).symm
  · split at h
    · exact .inr (Option.some.inj h).symm
    · contradiction

end AsmScan.Charmap
