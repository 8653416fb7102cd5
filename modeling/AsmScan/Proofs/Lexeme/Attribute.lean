import AsmScan.Proofs.Lexeme.Rule

/-! What a token carries.

A token carries nothing, an integer or a string, and its kind says which. `Carries`
lists what can be read off a text, with the bounds of the integers and the shape of
the strings, and `carries_read` says that nothing else is. The ends of lines and of
the input are not among it: those are found by the scan (`ordinary_read`). -/
namespace AsmScan.Lexeme

/-- Whether a token stands for the end of something, or for none. -/
def isEnd : Token → Bool
  | .initial | .eof | .separator => true
  | _ => false

/-- Whether a token is read off a text and carries nothing. -/
def isBare (t : Token) : Bool := !isEnd t && !t.hasInt && !t.hasString

/-- A token that can be read off a text, with what it carries. -/
inductive Carries : Token → Attr → Prop where
  | nothing {t : Token} : isBare t = true → Carries t .none
  | name {t : Token} {s : ShortString} :
      t = .identifier ∨ t = .mnemonic → s.bytes ≠ [] → Carries t (.str s)
  | number {value : UInt64} : value ≤ Numeral.limit → Carries .intConst (.int value.toNat)
  | char (b : UInt8) : Carries .charConst (.int b.toNat)
  | string (s : ShortString) : Carries .strConst (.str s)
  /-- As many labels ahead, or back. -/
  | label {count : Int} : count ≠ 0 → Carries .unnamedLabel (.int count)

/-- Case folding leaves a token with a string of the same kind. -/
theorem Carries.mapStr {t : Token} {attr : Attr} (h : Carries t attr) {f : ShortString → ShortString}
    (hf : ∀ s : ShortString, s.bytes ≠ [] → (f s).bytes ≠ []) : Carries t (attr.mapStr f) := by
  cases h with
  | nothing ht => exact .nothing ht
  | name ht hs => exact .name ht (hf _ hs)
  | number hv => exact .number hv
  | char b => exact .char b
  | string s => exact .string (f s)
  | label hn => exact .label hn

/-- If a lexeme is a token, it carries what such a token can. -/
def Fitting (l : Lexeme) : Prop := ∀ t attr, l.meaning = .token t attr → Carries t attr

theorem fitting_of_meaning {l : Lexeme} {t : Token} {attr : Attr} (hl : l.meaning = .token t attr)
    (h : Carries t attr) : l.Fitting := by
  intro t' attr' hl'
  rw [hl] at hl'
  cases hl'
  exact h

theorem fitting_plain {t : Token} {size : Nat} {h : 0 < size} (ht : isBare t = true) :
    (plain t size h).Fitting :=
  fitting_of_meaning rfl (.nothing ht)

/-! ### Words -/

theorem bytes_truncate_cons_ne_nil (b : UInt8) (more : List UInt8) :
    (ShortString.truncate (b :: more)).bytes ≠ [] :=
  List.cons_ne_nil _ _

theorem fitting_named {t : Token} {b : UInt8} {more : List UInt8}
    (ht : t = .identifier ∨ t = .mnemonic) : (named t b more).Fitting :=
  fitting_of_meaning rfl (.name ht (bytes_truncate_cons_ne_nil b more))

theorem isBare_dotted? {word : List UInt8} {t : Token} (h : Keyword.dotted? word = some t) :
    isBare t = true := by
  obtain ⟨w, hlisted, -⟩ := Keyword.dotted?_eq_some_iff.1 h
  have htable : Keyword.dotted.all (fun entry => isBare entry.2) = true := rfl
  exact List.all_eq_true.1 htable (w, t) hlisted

theorem fitting_letter? {b : UInt8} {rest : List UInt8} {l : Lexeme}
    (h : letter? b rest = some l) : l.Fitting := by
  unfold letter? at h
  split at h
  next t _ ho =>
    cases h
    unfold Keyword.override? at ho
    split at ho <;> cases ho <;> exact fitting_plain rfl
  next =>
    obtain ⟨t, ht, rfl⟩ := Option.map_eq_some_iff.1 h
    unfold Keyword.register? at ht
    split at ht <;> cases ht <;> exact fitting_plain rfl

theorem fitting_word (c : Config) (b : UInt8) (rest : List UInt8) : (word c b rest).Fitting := by
  have hwhole (isMnemonic : Bool) :
      (named (if isMnemonic then .mnemonic else .identifier) b (nameRun c.features rest)).Fitting := by
    cases isMnemonic
    · exact fitting_named (.inl rfl)
    · exact fitting_named (.inr rfl)
  unfold word
  dsimp only
  split
  · cases hl : letter? b rest with
    | none => exact hwhole _
    | some l => exact fitting_letter? hl
  · exact hwhole _

theorem fitting_dotted (c : Config) (rest : List UInt8) : (dotted c rest).Fitting := by
  unfold dotted
  split
  · dsimp only
    split
    next t ht => exact fitting_of_meaning rfl (.nothing (isBare_dotted? ht))
    · split
      · exact fitting_named (.inl rfl)
      · intro t attr hl
        cases hl
  · exact fitting_plain rfl

theorem fitting_localLabel (c : Config) (rest : List UInt8) : (localLabel c rest).Fitting := by
  unfold localLabel
  split
  · exact fitting_named (.inl rfl)
  · intro t attr hl
    cases hl

/-! ### Numbers -/

/-- The value of a run keeps to the limit. -/
theorem le_limit_of_eval {base : Base} {run : List UInt8} {value : UInt64}
    (h : Numeral.eval base run = .ok value) : value ≤ Numeral.limit := by
  unfold Numeral.eval at h
  split at h
  · contradiction
  · contradiction
  · dsimp only at h
    split at h
    · contradiction
    next hle =>
      cases h
      exact UInt64.not_lt.1 hle

theorem fitting_number (base : Base) (run : List UInt8) (size : Nat) (h : 0 < size) :
    (number base run size h).Fitting := by
  unfold number
  split
  next value hvalue => exact fitting_of_meaning rfl (.number (le_limit_of_eval hvalue))
  -- A faulty number is zero, which is below every limit.
  · exact fitting_of_meaning rfl (Carries.number (show 0 ≤ Numeral.limit by decide))
  · exact fitting_of_meaning rfl (Carries.number (show 0 ≤ Numeral.limit by decide))

theorem fitting_unmarked (fs : Features) (b : UInt8) (rest : List UInt8) :
    (unmarked fs b rest).Fitting := by
  unfold unmarked marked
  dsimp only
  split
  · exact fitting_number _ _ _ _
  · split
    · exact fitting_number _ _ _ _
    · split <;> exact fitting_number _ _ _ _

theorem fitting_dollar (fs : Features) (rest : List UInt8) : (dollar fs rest).Fitting := by
  unfold dollar
  split
  · exact fitting_number _ _ _ _
  · split
    · exact fitting_plain rfl
    · intro t attr hl
      cases hl

theorem fitting_percent (fs : Features) (rest : List UInt8) : (percent fs rest).Fitting := by
  unfold percent
  split
  · exact fitting_number _ _ _ _
  · exact fitting_plain rfl

/-! ### Literals and operators -/

theorem fitting_charLiteral (fs : Features) (m : Charmap) (rest : List UInt8) :
    (charLiteral fs m rest).Fitting := by
  unfold charLiteral
  dsimp only
  split
  · exact fitting_of_meaning rfl (.char _)
  · exact fitting_of_meaning rfl (.char _)
  · split
    · exact fitting_of_meaning rfl (.string _)
    · exact fitting_of_meaning rfl (.char _)

theorem fitting_colon (rest : List UInt8) : (colon rest).Fitting := by
  unfold colon
  split
  · exact fitting_plain rfl
  · exact fitting_plain rfl
  · exact fitting_of_meaning rfl (.label (by omega))
  · exact fitting_of_meaning rfl (.label (by omega))
  · exact fitting_plain rfl

theorem fitting_pair {b : UInt8} {single : Token} {seconds : List (UInt8 × Token)}
    (h : (b, single, seconds) ∈ doubled) (rest : List UInt8) :
    (pair single seconds rest).Fitting := by
  have htable : ∀ d ∈ doubled, isBare d.2.1 = true ∧ ∀ s ∈ d.2.2, isBare s.2 = true := by decide
  obtain ⟨hsingle, hseconds⟩ := htable _ h
  unfold pair
  split
  next t ht =>
    obtain ⟨second, -, hlookup⟩ := Option.bind_eq_some_iff.1 ht
    obtain ⟨before, after, rfl, -⟩ := List.lookup_eq_some_iff.1 hlookup
    exact fitting_plain (hseconds _ (List.mem_append_right _ (List.mem_cons_self ..)))
  · exact fitting_plain hsingle

/-! ### Every rule -/

/-- **A token read off a text carries what its kind says**, and no other kind is read. -/
theorem carries_read {c : Config} {m : Charmap} {b : UInt8} {rest : List UInt8} {t : Token}
    {attr : Attr} (hl : (read c m b rest).meaning = .token t attr) : Carries t attr := by
  have h := rule_read c m b
  generalize read c m b = rule at h hl
  suffices hfitting : (rule rest).Fitting from hfitting t attr hl
  cases h with
  | localLabel => exact fitting_localLabel c rest
  | word => exact fitting_word c b rest
  | unmarked => exact fitting_unmarked c.features b rest
  | dotted => exact fitting_dotted c rest
  | dollar => exact fitting_dollar c.features rest
  | percent => exact fitting_percent c.features rest
  | strLiteral => exact fitting_of_meaning rfl (.string _)
  | charLiteral => exact fitting_charLiteral c.features m rest
  | colon => exact fitting_colon rest
  | pair h => exact fitting_pair h rest
  | sign h =>
    have htable : ∀ s ∈ signs, isBare s.2 = true := by decide
    exact fitting_plain (htable _ h)
  | joint => unfold joint; split <;> intro t attr hl <;> cases hl
  | blank | lineEnd | comment | stray => intro t attr hl; cases hl

/-- What is read off a text is no end. -/
def Ordinary (l : Lexeme) : Prop := ∀ t attr, l.meaning = .token t attr → isEnd t = false

/-- No lexeme is an end of a line or of the input by itself: those are found by the scan. -/
theorem ordinary_read (c : Config) (m : Charmap) (b : UInt8) (rest : List UInt8) :
    Ordinary (read c m b rest) := by
  intro t attr hl
  cases carries_read hl with
  | nothing ht =>
    simp only [isBare, Bool.and_eq_true, Bool.not_eq_true'] at ht
    exact ht.1.1
  | name ht => rcases ht with rfl | rfl <;> rfl
  | number | char | string | label => rfl

end AsmScan.Lexeme
