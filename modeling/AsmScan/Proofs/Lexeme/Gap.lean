import AsmScan.Proofs.Lexeme.Rule
import Mathlib.Data.List.TakeWhile

/-! What stands between tokens.

A lexeme that is no token is a stretch of a gap: something that is passed over, or
something faulty. `Skipped` and `Faulty` say what the bytes of such a stretch are and
what cannot follow them, without a word about how they are read; `between_read` says
that every lexeme that is no token is one or the other. -/
namespace AsmScan

/-! ### Gaps -/

/-- A stretch of bytes between two tokens. -/
inductive GapItem where
  | skipped (bytes : List UInt8)
  | faulty (bytes : List UInt8)
deriving DecidableEq

namespace GapItem

def bytes : GapItem → List UInt8
  | .skipped bytes | .faulty bytes => bytes

/-- Whether the item counts as something passed over. A backslash where lines can be joined counts
even if it joins none. -/
def spaces (c : Config) : GapItem → Bool
  | .skipped _ => true
  | .faulty bytes => c.features.lineCont && bytes == [Byte.backslash]

end GapItem

/-- The end of a line, before some bytes: a line feed, a carriage return or both. -/
inductive LineEnding (after : List UInt8) : List UInt8 → Prop where
  | feed : LineEnding after [Byte.lineFeed]
  | returnFeed : LineEnding after [Byte.carriageReturn, Byte.lineFeed]
  | «return» : after.head? ≠ some Byte.lineFeed → LineEnding after [Byte.carriageReturn]

/-- A stretch that is passed over, before some bytes. -/
inductive Skipped (c : Config) (atLineStart : Bool) (after : List UInt8) : List UInt8 → Prop where
  | blank {b : UInt8} : b ∈ Byte.blanks → Skipped c atLineStart after [b]
  /-- A comment goes on to the end of its line, and no further. -/
  | comment {body : List UInt8} :
      Byte.lineFeed ∉ body → (∀ b ∈ after.head?, b = Byte.lineFeed) →
      Skipped c atLineStart after (Byte.semicolon :: body)
  | emptyLine : atLineStart = true → Skipped c atLineStart after [Byte.lineFeed]
  | joint {ending : List UInt8} :
      c.features.lineCont = true → LineEnding after ending →
      Skipped c atLineStart after (Byte.backslash :: ending)

/-- A stretch that begins no token, before some bytes. -/
inductive Faulty (c : Config) (after : List UInt8) : List UInt8 → Prop where
  | stray {b : UInt8} : Lexeme.Invalid c b → Faulty c after [b]
  | dollar :
      c.features.dollarIsPc = false → (∀ b ∈ after.head?, b ∉ hexDigits.map Prod.fst) →
      Faulty c after [Byte.dollar]
  | mark :
      (∀ b ∈ after.head?, b ∉ Byte.letters ∧ b ≠ Byte.underscore) →
      Faulty c after [c.localChar.byte]
  /-- An unknown directive is read to the last byte that goes on its name. -/
  | directive {name : List UInt8} :
      (∃ b ∈ name.head?, b ∈ Byte.letters ∨ b = Byte.underscore) →
      (∀ b ∈ name, Lexeme.GoesOnName c.features b) →
      (∀ b ∈ after.head?, ¬ Lexeme.GoesOnName c.features b) →
      (∀ w t, (w, t) ∈ Keyword.dotted →
        utf8 w ≠ (ShortString.truncate (Byte.dot :: name)).toUpper.bytes) →
      c.features.leadingDotInIdentifiers = false →
      Faulty c after (Byte.dot :: name)
  /-- Where lines can be joined, a backslash that does not stand at the end of one. -/
  | backslash :
      c.features.lineCont = true → after.head? ≠ some Byte.lineFeed →
      after.head? ≠ some Byte.carriageReturn → Faulty c after [Byte.backslash]

/-- A stretch that is passed over has bytes, and is not a lone backslash. -/
theorem Skipped.ne {c : Config} {start : Bool} {after bytes : List UInt8}
    (h : Skipped c start after bytes) : bytes ≠ [] ∧ bytes ≠ [Byte.backslash] := by
  cases h with
  | blank hb =>
    refine ⟨List.cons_ne_nil _ _, fun h => ?_⟩
    cases h
    exact absurd hb (by decide)
  | comment => exact ⟨List.cons_ne_nil _ _, fun h => absurd (List.cons.inj h).1 (by decide)⟩
  | emptyLine => decide
  | joint _ hending =>
    refine ⟨List.cons_ne_nil _ _, fun h => ?_⟩
    cases hending <;> cases h

theorem Faulty.ne_nil {c : Config} {after bytes : List UInt8} (h : Faulty c after bytes) :
    bytes ≠ [] := by
  cases h <;> exact List.cons_ne_nil _ _

namespace Lexeme

/-! ### Lexemes that are tokens -/

/-- A lexeme that is a token whatever comes before it. -/
def IsToken (l : Lexeme) : Prop := ∃ t attr, l.meaning = .token t attr

theorem isToken_number (base : Base) (run : List UInt8) (size : Nat) (h : 0 < size) :
    IsToken (number base run size h) := by
  unfold number
  split <;> exact ⟨_, _, rfl⟩

theorem isToken_word (c : Config) (b : UInt8) (rest : List UInt8) : IsToken (word c b rest) := by
  unfold word
  dsimp only
  split
  · cases hl : letter? b rest with
    | none => exact ⟨_, _, rfl⟩
    | some l =>
      unfold letter? at hl
      split at hl
      · cases hl
        exact ⟨_, _, rfl⟩
      · obtain ⟨t, -, rfl⟩ := Option.map_eq_some_iff.1 hl
        exact ⟨_, _, rfl⟩
  · exact ⟨_, _, rfl⟩

theorem isToken_unmarked (fs : Features) (b : UInt8) (rest : List UInt8) :
    IsToken (unmarked fs b rest) := by
  unfold unmarked marked
  dsimp only
  split
  · exact isToken_number ..
  · split
    · exact isToken_number ..
    · split <;> exact isToken_number ..

theorem isToken_percent (fs : Features) (rest : List UInt8) : IsToken (percent fs rest) := by
  unfold percent marked
  split
  · exact isToken_number ..
  · exact ⟨_, _, rfl⟩

theorem isToken_charLiteral (fs : Features) (m : Charmap) (rest : List UInt8) :
    IsToken (charLiteral fs m rest) := by
  unfold charLiteral
  dsimp only
  split
  · exact ⟨_, _, rfl⟩
  · exact ⟨_, _, rfl⟩
  · split <;> exact ⟨_, _, rfl⟩

theorem isToken_colon (rest : List UInt8) : IsToken (colon rest) := by
  unfold colon
  split <;> exact ⟨_, _, rfl⟩

theorem isToken_pair (single : Token) (seconds : List (UInt8 × Token)) (rest : List UInt8) :
    IsToken (pair single seconds rest) := by
  unfold pair
  split <;> exact ⟨_, _, rfl⟩

theorem IsToken.not_lineEnd {l : Lexeme} (h : IsToken l) : l.meaning ≠ .lineEnd := by
  obtain ⟨t, attr, hl⟩ := h
  rw [hl]
  exact nofun

/-- Only a line feed ends a line. -/
theorem eq_lineFeed_of_lineEnd {c : Config} {m : Charmap} {b : UInt8} {rest : List UInt8}
    (hl : (read c m b rest).meaning = .lineEnd) : b = Byte.lineFeed := by
  have h := rule_read c m b
  generalize read c m b = rule at h hl
  cases h with
  | lineEnd hb => exact hb
  | word => exact absurd hl (isToken_word c b rest).not_lineEnd
  | unmarked => exact absurd hl (isToken_unmarked c.features b rest).not_lineEnd
  | percent => exact absurd hl (isToken_percent c.features rest).not_lineEnd
  | charLiteral => exact absurd hl (isToken_charLiteral c.features m rest).not_lineEnd
  | colon => exact absurd hl (isToken_colon rest).not_lineEnd
  | pair => exact absurd hl (isToken_pair _ _ rest).not_lineEnd
  | localLabel =>
    unfold localLabel at hl
    split at hl <;> cases hl
  | dotted =>
    unfold dotted at hl
    dsimp only at hl
    split at hl
    · split at hl
      · cases hl
      · split at hl <;> cases hl
    · cases hl
  | dollar =>
    unfold dollar at hl
    split at hl
    · exact absurd hl (isToken_number _ _ _ _).not_lineEnd
    · split at hl <;> cases hl
  | joint =>
    unfold joint at hl
    split at hl <;> cases hl
  | blank | comment | strLiteral | sign | stray => cases hl

/-! ### Lexemes that are not -/

/-- What a lexeme at the front of some bytes is, when it is no token. -/
inductive Between (c : Config) (atLineStart : Bool) (l : Lexeme) (bytes : List UInt8) : Prop where
  | skipped : l.findings = [] → l.meaning ≠ .rejected →
      Skipped c atLineStart (bytes.drop l.size) (bytes.take l.size) → Between c atLineStart l bytes
  | faulty {p : Problem} : ⟨0, p⟩ ∈ l.findings →
      (l.meaning ≠ .rejected ↔ (GapItem.faulty (bytes.take l.size)).spaces c = true) →
      Faulty c (bytes.drop l.size) (bytes.take l.size) → Between c atLineStart l bytes

/-- The bytes of a run after a first byte, and what follows them. -/
theorem take_drop_run (p : UInt8 → Bool) (b : UInt8) (rest : List UInt8) :
    (b :: rest).take (1 + (rest.takeWhile p).length) = b :: rest.takeWhile p ∧
      (b :: rest).drop (1 + (rest.takeWhile p).length) = rest.dropWhile p := by
  rw [Nat.add_comm 1, List.take_succ_cons, List.drop_succ_cons]
  have htake : rest.take (rest.takeWhile p).length = rest.takeWhile p :=
    (List.prefix_iff_eq_take.1 (List.takeWhile_prefix p)).symm
  have hsplit := List.take_append_drop (rest.takeWhile p).length rest
  rw [htake] at hsplit
  exact ⟨congrArg _ htake,
    List.append_cancel_left (hsplit.trans List.takeWhile_append_dropWhile.symm)⟩

/-- What follows a run does not go on it. -/
theorem run_ends (p : UInt8 → Bool) (rest : List UInt8) :
    ∀ b ∈ (rest.dropWhile p).head?, p b = false := by
  intro b hb
  have h := List.head?_dropWhile_not p rest
  rw [Option.mem_def.1 hb] at h
  exact h

/-- A run of at least one byte begins as the bytes do. -/
theorem startsName_nameRun {fs : Features} {rest : List UInt8} (h : startsName rest = true) :
    startsName (nameRun fs rest) = true := by
  cases rest with
  | nil => contradiction
  | cons b more =>
    have hb : Byte.isNameStart b = true := h
    have hgoes : isNameByte fs b = true := by simp only [isNameByte, hb, Bool.true_or]
    rw [nameRun, List.takeWhile_cons_of_pos hgoes]
    exact hb

section Rules
variable {c : Config} {start : Bool} {b : UInt8} {rest : List UInt8}

theorem between_localLabel (hb : b = c.localChar.byte) (h : ¬ IsToken (localLabel c rest)) :
    Between c start (localLabel c rest) (b :: rest) := by
  unfold localLabel at h ⊢
  split at h
  · exact absurd ⟨_, _, rfl⟩ h
  next hname =>
    rw [if_neg hname]
    refine .faulty (List.mem_singleton_self _) ?_ (hb ▸ .mark ?_)
    · have hne : c.localChar.byte ≠ Byte.backslash := (ne_mark c (by decide)).symm
      simp [GapItem.spaces, hb, hne]
    · exact startsName_eq_false_iff.1 (by simpa using hname)

theorem between_stray (hb : Invalid c b) : Between c start (stray b) (b :: rest) := by
  refine .faulty (List.mem_singleton_self _) ?_ (.stray hb)
  have hjoint := hb.joint
  simp only [stray, GapItem.spaces, List.take_succ_cons, List.take_zero]
  by_cases hb : b = Byte.backslash
  · simp [hjoint hb]
  · simp [hb]

theorem between_comment : Between c start (comment rest) (Byte.semicolon :: rest) := by
  obtain ⟨htake, hdrop⟩ := take_drop_run (· != Byte.lineFeed) Byte.semicolon rest
  refine .skipped rfl nofun ?_
  show Skipped c start ((Byte.semicolon :: rest).drop _) ((Byte.semicolon :: rest).take _)
  rw [comment, blank, htake, hdrop]
  refine .comment (fun hlf => ?_) fun b hb => ?_
  · have := List.mem_takeWhile_imp hlf
    contradiction
  · simpa using run_ends _ _ b hb

theorem between_joint (hc : c.features.lineCont = true) :
    Between c start (joint rest) (Byte.backslash :: rest) := by
  unfold joint
  split
  · exact .skipped rfl nofun (.joint hc .feed)
  · exact .skipped rfl nofun (.joint hc .returnFeed)
  next after hfeed =>
    refine .skipped rfl nofun (.joint hc (.return fun h => ?_))
    obtain ⟨more, rfl⟩ := List.head?_eq_some_iff.1 h
    exact hfeed more rfl
  next hfeed _ hreturn =>
    refine .faulty (List.mem_singleton_self _) ?_ (.backslash hc (fun h => ?_) fun h => ?_)
    · simp [GapItem.spaces, hc]
    · obtain ⟨more, hmore⟩ := List.head?_eq_some_iff.1 h
      exact hfeed more hmore
    · obtain ⟨more, hmore⟩ := List.head?_eq_some_iff.1 h
      exact hreturn more hmore

theorem between_dotted (h : ¬ IsToken (dotted c rest)) :
    Between c start (dotted c rest) (Byte.dot :: rest) := by
  obtain ⟨htake, hdrop⟩ := take_drop_run (isNameByte c.features) Byte.dot rest
  unfold dotted at h ⊢
  split at h
  next hname =>
    rw [if_pos hname]
    dsimp only at h ⊢
    split at h
    · exact absurd ⟨_, _, rfl⟩ h
    next hunknown =>
      split at h
      · exact absurd ⟨_, _, rfl⟩ h
      next hleading =>
        simp only [hleading, Bool.false_eq_true, if_false]
        refine .faulty (List.mem_append_right _ (List.mem_singleton_self _)) ?_ ?_
        · show _ ↔ (GapItem.faulty ((Byte.dot :: rest).take _)).spaces c = true
          have hne : Byte.dot ≠ Byte.backslash := by decide
          simp only [nameRun]
          rw [htake]
          simp [GapItem.spaces, hne]
        · show Faulty c ((Byte.dot :: rest).drop _) ((Byte.dot :: rest).take _)
          simp only [nameRun]
          rw [htake, hdrop]
          refine .directive (startsName_iff.1 (startsName_nameRun hname))
            (fun b hb => isNameByte_iff.1 (List.mem_takeWhile_imp hb))
            (fun b hb => isNameByte_eq_false_iff.1 (run_ends _ _ b hb)) (fun w t hlisted hw => ?_)
            (by simpa using hleading)
          have hfound := Keyword.dotted?_eq_some_iff.2 ⟨w, hlisted, hw⟩
          exact Option.some_ne_none t (hfound.symm.trans hunknown)
  · exact absurd ⟨_, _, rfl⟩ h

theorem between_dollar (h : ¬ IsToken (dollar c.features rest)) :
    Between c start (dollar c.features rest) (Byte.dollar :: rest) := by
  unfold dollar at h ⊢
  split at h
  · exact absurd (isToken_number ..) h
  next hdigit =>
    split at h
    · exact absurd ⟨_, _, rfl⟩ h
    next hpc =>
      rw [if_neg hdigit, if_neg hpc]
      refine .faulty (List.mem_singleton_self _) ?_ ?_
      · have hne : Byte.dollar ≠ Byte.backslash := by decide
        simp [stray, GapItem.spaces, hne]
      · show Faulty c rest [Byte.dollar]
        refine .dollar (by simpa using hpc) fun b hb => ?_
        rw [Option.mem_def.1 hb, Option.bind_some, Option.not_isSome_iff_eq_none] at hdigit
        exact digitValue?_eq_none_iff.1 hdigit

end Rules

/-- **A lexeme that is no token is passed over or is faulty**, provided that it is no end of a line
that holds something. -/
theorem between_read (c : Config) (m : Charmap) {start : Bool} (b : UInt8) (rest : List UInt8)
    (htoken : ¬ IsToken (read c m b rest))
    (hend : (read c m b rest).meaning = .lineEnd → start = true) :
    Between c start (read c m b rest) (b :: rest) := by
  have h := rule_read c m b
  generalize read c m b = rule at h htoken hend
  cases h with
  | localLabel hb => exact between_localLabel hb htoken
  | blank hb => exact .skipped rfl nofun (.blank (Byte.isBlank_iff.1 hb))
  | word => exact absurd (isToken_word c b rest) htoken
  | unmarked => exact absurd (isToken_unmarked c.features b rest) htoken
  | lineEnd hb => exact hb ▸ .skipped rfl nofun (.emptyLine (hend rfl))
  | comment hb => exact hb ▸ between_comment
  | joint hb hc => exact hb ▸ between_joint hc
  | dotted hb => exact hb ▸ between_dotted htoken
  | dollar hb => exact hb ▸ between_dollar htoken
  | percent => exact absurd (isToken_percent c.features rest) htoken
  | strLiteral => exact absurd ⟨_, _, rfl⟩ htoken
  | charLiteral => exact absurd (isToken_charLiteral c.features m rest) htoken
  | colon => exact absurd (isToken_colon rest) htoken
  | pair => exact absurd (isToken_pair _ _ rest) htoken
  | sign => exact absurd ⟨_, _, rfl⟩ htoken
  | stray hb => exact between_stray hb

end Lexeme
end AsmScan
