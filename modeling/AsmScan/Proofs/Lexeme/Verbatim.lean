import AsmScan.Proofs.Lexeme.Decode

/-! Escapes that do not exist.

In a text all of whose escapes are such (`Unknown`), each is a fault at the byte behind its
backslash, and the text stands for itself but for one thing: the mark of a hexadecimal escape
is kept as a small letter, whichever it is (`smallMarks`, `decodes_unknown`). So the escapes are
kept as they are written just where no mark is a capital (`smallMarks_eq_iff`). -/
namespace AsmScan.Quoted

/-- Each backslash begins an escape that does not exist: what is behind it is not the name of a
byte, nor the mark of a hexadecimal escape with a digit behind it. -/
def Unknown (body : List UInt8) : Prop :=
  ∀ place, body[place]? = some Byte.backslash → ∃ b, body[place + 1]? = some b ∧
    b ∉ names.map Prod.fst ∧
      (b = Byte.lowerX ∨ b = Byte.upperX →
        ∀ next ∈ body[place + 2]?, next ∉ hexDigits.map Prod.fst)

instance (body : List UInt8) : Decidable (Unknown body) :=
  decidable_of_iff
    (∀ place < body.length, body[place]? = some Byte.backslash →
      body[place + 1]?.any (fun b => b ∉ names.map Prod.fst ∧
        (b = Byte.lowerX ∨ b = Byte.upperX →
          body[place + 2]?.all (· ∉ hexDigits.map Prod.fst) = true)) = true) <| by
    simp only [Option.any_eq_true, Option.all_eq_true, decide_eq_true_eq]
    exact ⟨fun h place hplace => h place (List.getElem?_eq_some_iff.1 hplace).1 hplace,
      fun h place _ => h place⟩

/-- A text with the marks of its hexadecimal escapes made small. -/
def smallMarks : List UInt8 → List UInt8
  | Byte.backslash :: Byte.upperX :: rest => Byte.backslash :: Byte.lowerX :: smallMarks rest
  | b :: rest => b :: smallMarks rest
  | [] => []

/-! ### Small marks -/

@[simp] theorem length_smallMarks (body : List UInt8) : (smallMarks body).length = body.length := by
  fun_induction smallMarks body with
  | case1 _ ih => simp [ih]
  | case2 _ _ _ ih => simp [ih]
  | case3 => rfl

theorem smallMarks_of_ne {b : UInt8} (hb : b ≠ Byte.backslash) (rest : List UInt8) :
    smallMarks (b :: rest) = b :: smallMarks rest := by
  rw [smallMarks]
  exact fun _ h => absurd h hb

theorem smallMarks_escape {c : UInt8} (hc : c ≠ Byte.backslash) (rest : List UInt8) :
    smallMarks (Byte.backslash :: c :: rest) =
      Byte.backslash :: (if c = Byte.upperX then Byte.lowerX else c) :: smallMarks rest := by
  by_cases hmark : c = Byte.upperX
  · subst hmark
    rfl
  · have hrest : smallMarks (Byte.backslash :: c :: rest) =
        Byte.backslash :: smallMarks (c :: rest) := by
      rw [smallMarks]
      rintro _ _ ⟨⟩
      exact hmark rfl
    rw [hrest, smallMarks_of_ne hc, if_neg hmark]

/-- Of a text that is cut the marks are made small as of the whole. -/
theorem take_smallMarks (count : Nat) (body : List UInt8) :
    (smallMarks body).take count = smallMarks (body.take count) := by
  fun_induction smallMarks body generalizing count with
  | case1 rest ih =>
    match count with
    | 0 | 1 => rfl
    | count + 2 =>
      show Byte.backslash :: Byte.lowerX :: (smallMarks rest).take count = _
      rw [ih]
      rfl
  | case2 b rest hmark ih =>
    cases count with
    | zero => rfl
    | succ count =>
      have hcut : ∀ more, b = Byte.backslash → rest.take count = Byte.upperX :: more → False := by
        intro more hb hrest
        cases count with
        | zero => cases hrest
        | succ count =>
          cases rest with
          | nil => cases hrest
          | cons c rest =>
            obtain ⟨rfl, -⟩ := List.cons.inj hrest
            exact hmark rest hb rfl
      rw [List.take_succ_cons, List.take_succ_cons, ih, smallMarks]
      exact hcut
  | case3 => simp [smallMarks]

/-- **Only where a mark is a capital is it not kept.** -/
theorem smallMarks_eq_iff (body : List UInt8) :
    smallMarks body = body ↔ ¬ [Byte.backslash, Byte.upperX] <:+: body := by
  fun_induction smallMarks body with
  | case1 rest =>
    have hfront : [Byte.backslash, Byte.upperX] <+: Byte.backslash :: Byte.upperX :: rest :=
      ⟨rest, rfl⟩
    refine ⟨fun h => absurd h ?_, fun h => absurd hfront.isInfix h⟩
    rintro ⟨⟩
  | case2 b rest hmark ih =>
    have hfront : ¬ [Byte.backslash, Byte.upperX] <+: b :: rest := by
      rintro ⟨more, hmore⟩
      obtain ⟨hb, hrest⟩ := List.cons.inj hmore
      exact hmark more hb.symm hrest.symm
    rw [List.cons.injEq, List.infix_cons_iff, ih]
    simp [hfront]
  | case3 => simp

/-! ### Texts without escapes that exist -/

section Unknown
variable {quote : UInt8} {body : List UInt8}

theorem Unknown.tail {b : UInt8} (h : Unknown (b :: body)) : Unknown body :=
  fun place => h (place + 1)

theorem plain_tail {b : UInt8}
    (h : quote ∉ b :: body ∧ Byte.carriageReturn ∉ b :: body ∧ Byte.lineFeed ∉ b :: body) :
    quote ∉ body ∧ Byte.carriageReturn ∉ body ∧ Byte.lineFeed ∉ body :=
  ⟨List.not_mem_of_not_mem_cons h.1, List.not_mem_of_not_mem_cons h.2.1,
    List.not_mem_of_not_mem_cons h.2.2⟩

/-- Behind a backslash there is a byte, and no other backslash. -/
theorem Unknown.escape (h : Unknown (Byte.backslash :: body)) :
    ∃ c more, body = c :: more ∧ c ∉ names.map Prod.fst ∧ c ≠ Byte.backslash ∧
      (c = Byte.lowerX ∨ c = Byte.upperX →
        ∀ next ∈ more.head?, next ∉ hexDigits.map Prod.fst) := by
  obtain ⟨c, hc, hname, hdigit⟩ := h 0 rfl
  cases body with
  | nil => cases hc
  | cons _ more =>
    cases hc
    refine ⟨_, more, rfl, hname, fun hc => hname (hc ▸ by decide), ?_⟩
    rwa [List.head?_eq_getElem?]

/-- The last byte is not a backslash, so that the next would not be hidden. -/
theorem Unknown.not_hidden (h : Unknown body) : ¬ Hidden body body.length := by
  cases hlength : body.length with
  | zero => exact id
  | succ count =>
    rintro ⟨hlast, -⟩
    obtain ⟨b, hb, -⟩ := h count hlast
    rw [List.getElem?_eq_none (by omega)] at hb
    cases hb

/-- An escape that does not exist is a part of its own. -/
theorem part_unknown (quote : UInt8) {c : UInt8} {more : List UInt8} (hname : c ∉ names.map Prod.fst)
    (hdigit : c = Byte.lowerX ∨ c = Byte.upperX →
      ∀ next ∈ more.head?, next ∉ hexDigits.map Prod.fst) :
    ∃ problem : Problem, problem.kind = .invalidCharacter ∧
      Part quote more [Byte.backslash, c]
        [Byte.backslash, if c = Byte.upperX then Byte.lowerX else c] (some problem) := by
  by_cases hmark : c = Byte.lowerX ∨ c = Byte.upperX
  · have hsmall : (if c = Byte.upperX then Byte.lowerX else c) = Byte.lowerX := by
      rcases hmark with rfl | rfl <;> rfl
    rw [hsmall]
    exact ⟨.hexEscapeWithoutDigits, rfl, .noDigits hmark (hdigit hmark)⟩
  · rw [if_neg fun hc => hmark (.inr hc)]
    exact ⟨.unknownEscape c, rfl, .unknown hname hmark⟩

/-- **Each escape that does not exist is a fault at the byte behind its backslash**, and is kept but
for a capital mark. -/
theorem decodes_unknown
    (hplain : quote ∉ body ∧ Byte.carriageReturn ∉ body ∧ Byte.lineFeed ∉ body)
    (h : Unknown body) (offset : Nat) :
    ∃ faults, Decodes quote offset body (smallMarks body) faults ∧
      faults.map (fun f => (f.problem.kind, f.offset)) =
        (body.idxsOf Byte.backslash offset).map fun place => (.invalidCharacter, place + 1) := by
  induction hlength : body.length using Nat.strongRecOn generalizing body offset with
  | ind n ih =>
  cases body with
  | nil => exact ⟨[], .nil, rfl⟩
  | cons b rest =>
    rw [List.length_cons] at hlength
    by_cases hb : b = Byte.backslash
    · subst hb
      obtain ⟨c, more, rfl, hname, hc, hdigit⟩ := h.escape
      rw [List.length_cons] at hlength
      obtain ⟨problem, hkind, hpart⟩ := part_unknown quote hname hdigit
      obtain ⟨faults, hdecodes, hfaults⟩ :=
        ih more.length (by omega) (plain_tail (plain_tail hplain)) h.tail.tail (offset + 2) rfl
      rw [smallMarks_escape hc]
      refine ⟨_, .cons hpart hdecodes, ?_⟩
      have hnot : (c == Byte.backslash) = false := beq_eq_false_iff_ne.2 hc
      simp only [Option.map_some, Option.toList_some, List.singleton_append, List.map_cons, hfaults,
        hkind, List.idxsOf_cons, beq_self_eq_true, hnot, if_true, Bool.false_eq_true, if_false]
    · have hself {b' : UInt8} (hb' : b' ∉ b :: rest) : b ≠ b' := Ne.symm (List.ne_of_not_mem_cons hb')
      obtain ⟨faults, hdecodes, hfaults⟩ :=
        ih rest.length (by omega) (plain_tail hplain) h.tail (offset + 1) rfl
      rw [smallMarks_of_ne hb]
      refine ⟨_, .cons (.byte (.self (hself hplain.1) hb (hself hplain.2.1) (hself hplain.2.2)))
        hdecodes, ?_⟩
      have hnot : (b == Byte.backslash) = false := beq_eq_false_iff_ne.2 hb
      rw [List.idxsOf_cons, hnot, if_neg Bool.false_ne_true, ← hfaults]
      rfl

/-- Such a text is a literal, whether its escapes are decoded or not. -/
theorem literal_unknown
    (hplain : quote ∉ body ∧ Byte.carriageReturn ∉ body ∧ Byte.lineFeed ∉ body)
    (h : Unknown body) (after : List UInt8) :
    Literal quote false body (quote :: after) body [] ∧
      ∃ faults, Literal quote true body (quote :: after) (smallMarks body) faults ∧
        faults.map (fun f => (f.problem.kind, f.offset)) =
          (body.idxsOf Byte.backslash 1).map fun place => (.invalidCharacter, place + 1) := by
  have hextent (escapes : Bool) : Extent quote escapes body (quote :: after) := by
    refine ⟨⟨hplain.2.2, hplain.2.1⟩, fun place hplace => ?_, ?_⟩
    · exact absurd (List.mem_of_getElem? hplace) hplain.1
    · exact .inr (.inr (.inr ⟨rfl, fun _ => h.not_hidden⟩))
  obtain ⟨faults, hdecodes, hfaults⟩ := decodes_unknown hplain h 1
  exact ⟨⟨hextent false, nofun, fun _ => ⟨rfl, rfl⟩⟩, faults,
    ⟨hextent true, fun _ => hdecodes, nofun⟩, hfaults⟩

end Unknown

end AsmScan.Quoted
