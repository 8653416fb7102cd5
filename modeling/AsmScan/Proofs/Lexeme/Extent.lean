import AsmScan.Proofs.Lexeme.Literal

/-! Where literals end.

Behind a quote there may be anything. A literal goes on to the next quote of its kind
that is not the second byte of an escape, or else to the end of its line (`Extent`). It
always has an end (`exists_extent`), and is read up to it (`body_extent`). -/
namespace AsmScan.Quoted

/-- The byte at a place is the second of an escape: before it stands a backslash that is not. -/
def Hidden (text : List UInt8) : Nat → Prop
  | 0 => False
  | place + 1 => text[place]? = some Byte.backslash ∧ ¬ Hidden text place

instance decidableHidden (text : List UInt8) : (place : Nat) → Decidable (Hidden text place)
  | 0 => inferInstanceAs (Decidable False)
  | place + 1 =>
    have := decidableHidden text place
    inferInstanceAs (Decidable (text[place]? = some Byte.backslash ∧ ¬ Hidden text place))

/-- What stands between quotes, and what stands behind it. -/
structure Extent (quote : UInt8) (escapes : Bool) (body after : List UInt8) : Prop where
  /-- It is all on one line. -/
  line : Byte.lineFeed ∉ body ∧ Byte.carriageReturn ∉ body
  /-- A quote does not end it that an escape hides. -/
  quotes : ∀ place, body[place]? = some quote → escapes = true ∧ Hidden body place
  /-- Another quote does, as does the end of the line, or of the text. -/
  ends : after.head? = none ∨ after.head? = some Byte.lineFeed ∨
    after.head? = some Byte.carriageReturn ∨
    after.head? = some quote ∧ (escapes = true → ¬ Hidden body body.length)

instance (quote : UInt8) (escapes : Bool) (body after : List UInt8) :
    Decidable (Extent quote escapes body after) :=
  decidable_of_iff
    ((Byte.lineFeed ∉ body ∧ Byte.carriageReturn ∉ body) ∧
      (∀ place < body.length, body[place]? = some quote → escapes = true ∧ Hidden body place) ∧
      (after.head? = none ∨ after.head? = some Byte.lineFeed ∨
        after.head? = some Byte.carriageReturn ∨
        after.head? = some quote ∧ (escapes = true → ¬ Hidden body body.length)))
    ⟨fun ⟨line, quotes, ends⟩ =>
        ⟨line, fun place h => quotes place (List.getElem?_eq_some_iff.1 h).1 h, ends⟩,
      fun h => ⟨h.line, fun place _ => h.quotes place, h.ends⟩⟩

/-- Before a byte that is not hidden the text may as well begin. -/
theorem hidden_drop {text : List UInt8} {start : Nat} (h : ¬ Hidden text start) (place : Nat) :
    Hidden (text.drop start) place ↔ Hidden text (start + place) := by
  induction place with
  | zero => exact ⟨False.elim, h⟩
  | succ place ih =>
    show _ ∧ _ ↔ text[start + place]? = some Byte.backslash ∧ ¬ Hidden text (start + place)
    rw [ih, List.getElem?_drop]

section Extents
variable {quote : UInt8} {escapes : Bool} {body after : List UInt8}

/-- The end of a literal, from a place on to which it has been read. -/
theorem Extent.body_eq (h : Extent quote escapes body after) (done : List UInt8)
    {todo : List UInt8} {hidden : Bool} (hbody : body = done ++ todo)
    (hhidden : hidden = true ↔ escapes = true ∧ Hidden body done.length) :
    Quoted.body quote escapes hidden (todo ++ after) = todo := by
  induction todo generalizing done hidden with
  | nil =>
    rw [List.append_nil] at hbody
    subst hbody
    cases after with
    | nil => rfl
    | cons b more =>
      have hstop : (endsLine b || b == quote && !hidden) = true := by
        have hends := h.ends
        simp only [List.head?_cons, reduceCtorEq, Option.some.injEq, false_or] at hends
        rcases hends with rfl | rfl | ⟨rfl, hshown⟩
        · rfl
        · rfl
        · have : hidden = false := by
            rw [← Bool.not_eq_true, hhidden]
            exact fun ⟨he, hh⟩ => hshown he hh
          simp [this]
      rw [List.nil_append, Quoted.body, if_pos hstop]
  | cons b todo ih =>
    have hplace : body[done.length]? = some b := by simp [hbody]
    have hb : b ∈ body := List.mem_of_getElem? hplace
    have hfeed : b ≠ Byte.lineFeed := fun h' => h.line.1 (h' ▸ hb)
    have hreturn : b ≠ Byte.carriageReturn := fun h' => h.line.2 (h' ▸ hb)
    have hgoes : ¬ (endsLine b || b == quote && !hidden) = true := by
      have hquote (hb : b = quote) : hidden = true := hhidden.2 (h.quotes _ (hb ▸ hplace))
      simp only [endsLine, Bool.or_eq_true, Bool.and_eq_true, beq_iff_eq, Bool.not_eq_true']
      rintro ((hb | hb) | ⟨hb, hshown⟩)
      · exact hfeed hb
      · exact hreturn hb
      · exact absurd (hquote hb) (by simp [hshown])
    have hnext : (escapes && b == Byte.backslash && !hidden) = true ↔
        escapes = true ∧ Hidden body (done ++ [b]).length := by
      rw [List.length_append, List.length_singleton]
      show _ ↔ _ ∧ body[done.length]? = some Byte.backslash ∧ ¬ Hidden body done.length
      rw [hplace]
      simp only [Bool.and_eq_true, beq_iff_eq, Bool.not_eq_true', Option.some.injEq,
        ← Bool.not_eq_true, hhidden]
      grind
    rw [List.cons_append, Quoted.body, if_neg hgoes, ih (done ++ [b]) (by simp [hbody]) hnext]

/-- **The first quote that no escape hides ends the literal**, or the line does. -/
theorem body_extent (h : Extent quote escapes body after) :
    Quoted.body quote escapes false (body ++ after) = body :=
  h.body_eq [] rfl ⟨nofun, fun hh => absurd hh.2 id⟩

/-- What is left of a literal before a byte that is not hidden has the same end. -/
theorem Extent.drop (h : Extent quote true body after) (start : Nat) (hle : start ≤ body.length)
    (hstart : ¬ Hidden body start) : Extent quote true (body.drop start) after where
  line := ⟨fun hb => h.line.1 (List.mem_of_mem_drop hb), fun hb => h.line.2 (List.mem_of_mem_drop hb)⟩
  quotes place hplace := by
    rw [List.getElem?_drop] at hplace
    rw [hidden_drop hstart]
    exact h.quotes _ hplace
  ends := by
    rw [hidden_drop hstart, List.length_drop, Nat.add_sub_cancel' hle]
    exact h.ends

end Extents

end AsmScan.Quoted
