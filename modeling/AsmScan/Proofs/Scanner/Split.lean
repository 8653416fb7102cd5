import AsmScan.Proofs.Lexeme.Gap
import AsmScan.Proofs.Scanner.Frame

/-! The split theorem.

Up to its first end, the scan of a text cuts it into gaps and lexemes that alternate
(`splits_ofText`). No byte is lost, read twice or read ahead: after a call the
scanner stands exactly at the end of the lexeme that the call has found, and the
token is positioned at its beginning. What is passed over in a gap sets off the token
after it; what is faulty in it is reported where it begins, and sets off nothing.

One item falls out of that. A backslash that joins no lines is faulty and is reported,
but where lines can be joined it sets off the token after it all the same
(`backslash_spaces`). -/
namespace AsmScan

/-- An item that stands at a position, before some bytes, is what its bytes are. If it is faulty, it
is reported at its first byte. -/
def GapItem.Fits (c : Config) (atLineStart : Bool) (reported : List Message) (pos : Position)
    (after : List UInt8) : GapItem → Prop
  | .skipped bytes => Skipped c atLineStart after bytes
  | .faulty bytes => Faulty c after bytes ∧ ∃ m ∈ reported, m.pos = pos

/-- Items one after the other from a position on, before some bytes. -/
def FillGap (c : Config) (atLineStart : Bool) (reported : List Message) :
    Position → List GapItem → List UInt8 → Prop
  | _, [], _ => True
  | pos, item :: more, after =>
    item.Fits c atLineStart reported pos (more.flatMap GapItem.bytes ++ after) ∧
      FillGap c atLineStart reported (pos.past item.bytes) more after

theorem GapItem.Fits.bytes_ne_nil {c : Config} {start : Bool} {reported : List Message}
    {pos : Position} {after : List UInt8} {item : GapItem}
    (h : item.Fits c start reported pos after) : item.bytes ≠ [] := by
  cases item with
  | skipped => exact (Skipped.ne h).1
  | faulty => exact h.1.ne_nil

theorem FillGap.eq_nil {c : Config} {start : Bool} {reported : List Message} {pos : Position}
    {gap : List GapItem} {after : List UInt8} (h : FillGap c start reported pos gap after)
    (hbytes : gap.flatMap GapItem.bytes = []) : gap = [] := by
  cases gap with
  | nil => rfl
  | cons item more =>
    rw [List.flatMap_cons, List.append_eq_nil_iff] at hbytes
    exact absurd hbytes.1 h.1.bytes_ne_nil

/-- A lexeme with the gap before it. -/
structure Stretch where
  gap : List GapItem
  lexeme : List UInt8

def Stretch.bytes (s : Stretch) : List UInt8 := s.gap.flatMap GapItem.bytes ++ s.lexeme

namespace Scanner

/-- The next call passes a gap over, up to the rest of the text. The scanner stands past some bytes
of a source. -/
structure Passes (start : Position) (before : List UInt8) (s : Scanner) (gap : List GapItem)
    (rest : List UInt8) : Prop where
  unread : s.input.unread = gap.flatMap GapItem.bytes ++ rest
  fills : FillGap s.config s.atLineStart s.turn.reported (start.past before) gap rest
  spaced : s.turn.found.spaced = gap.any (·.spaces s.config)
  pos : s.turn.found.pos = start.past (before ++ gap.flatMap GapItem.bytes)

/-- What a scanner has left of a source is cut into stretches and a last gap by its calls, up to the
one that finds the end. -/
inductive Splits (start : Position) :
    List UInt8 → Scanner → List Stretch → List GapItem → List Turn → Prop where
  | ended {before : List UInt8} {s : Scanner} {gap : List GapItem} :
      Passes start before s gap [] → s.turn.found.token = .eof →
      Splits start before s [] gap [s.turn]
  | token {before : List UInt8} {s : Scanner} {gap last : List GapItem} {lexeme rest : List UInt8}
      {stretches : List Stretch} {turns : List Turn} :
      Passes start before s gap (lexeme ++ rest) → lexeme ≠ [] → s.turn.found.token ≠ .eof →
      s.next.input.unread = rest →
      Splits start (before ++ (Stretch.mk gap lexeme).bytes) s.next stretches last turns →
      Splits start before s (⟨gap, lexeme⟩ :: stretches) last (s.turn :: turns)

/-- The stretches and the last gap are all that the scanner has left. -/
theorem Splits.unread {start : Position} {before : List UInt8} {s : Scanner}
    {stretches : List Stretch} {last : List GapItem} {turns : List Turn}
    (h : Splits start before s stretches last turns) :
    s.input.unread = stretches.flatMap Stretch.bytes ++ last.flatMap GapItem.bytes := by
  induction h with
  | ended h _ => rw [h.unread, List.append_nil, List.flatMap_nil, List.nil_append]
  | token h _ _ hrest _ ih =>
    rw [h.unread, ← hrest, ih, List.flatMap_cons, Stretch.bytes]
    simp only [List.append_assoc]

end Scanner

/-! ### Gaps and chunks -/

/-- A chunk that is no token, as an item of a gap. -/
def Chunk.gapItem (k : Chunk) : GapItem :=
  if k.lexeme.findings = [] then .skipped k.bytes else .faulty k.bytes

@[simp] theorem Chunk.bytes_gapItem (k : Chunk) : k.gapItem.bytes = k.bytes := by
  unfold gapItem
  split <;> rfl

theorem Chunk.flatMap_gapItem (ks : List Chunk) :
    (ks.map gapItem).flatMap GapItem.bytes = ks.flatMap bytes := by
  rw [List.flatMap_map]
  simp only [bytes_gapItem]

namespace Reading
variable {c : Config} {m : Charmap} {r : Reading} {k : Chunk} {text : List UInt8}
  {a more : List Chunk}

theorem between_of_turn?_none (hk : chunks c m text = k :: more) (ht : r.turn? k = none) :
    Lexeme.Between c r.atLineStart k.lexeme (k.bytes ++ more.flatMap Chunk.bytes) := by
  obtain ⟨first, rest, after, htext, hfirst, hread, -, hmore⟩ := exists_of_chunks_eq_cons c m hk
  have hafter : more.flatMap Chunk.bytes = after := by rw [← hmore, flatMap_chunks]
  have htoken : r.token? k = none := by simpa [turn?] using ht
  rw [hafter, ← htext, hfirst, hread]
  refine Lexeme.between_read c m first rest ?_ ?_
  · rintro ⟨t, attr, hl⟩
    rw [← hread] at hl
    simp [token?, hl] at htoken
  · intro hl
    rw [← hread] at hl
    simpa [token?, hl] using htoken

/-- A chunk in which nothing is found is an item, and it is passed over if the item is. -/
theorem fits_of_turn?_none (hk : chunks c m text = k :: more) (ht : r.turn? k = none)
    {reported : List Message} (hreported : k.lexeme.messages r.pos ⊆ reported) :
    k.gapItem.Fits c r.atLineStart reported r.pos (more.flatMap Chunk.bytes) ∧
      (k.lexeme.meaning ≠ .rejected ↔ k.gapItem.spaces c = true) := by
  obtain ⟨-, -, -, -, -, -, hlen, -⟩ := exists_of_chunks_eq_cons c m hk
  have htake : (k.bytes ++ more.flatMap Chunk.bytes).take k.lexeme.size = k.bytes := by
    rw [← hlen, List.take_left]
  have hdrop : (k.bytes ++ more.flatMap Chunk.bytes).drop k.lexeme.size =
      more.flatMap Chunk.bytes := by
    rw [← hlen, List.drop_left]
  cases between_of_turn?_none hk ht with
  | skipped hnone hmeaning h =>
    have hitem : k.gapItem = .skipped k.bytes := if_pos hnone
    rw [htake, hdrop] at h
    rw [hitem]
    exact ⟨h, iff_of_true hmeaning rfl⟩
  | @faulty p hp hmeaning h =>
    have hitem : k.gapItem = .faulty k.bytes := if_neg (List.ne_nil_of_mem hp)
    rw [htake, hdrop] at h
    rw [htake] at hmeaning
    rw [hitem]
    exact ⟨⟨h, _, hreported (List.mem_map.2 ⟨⟨0, p⟩, hp, rfl⟩), rfl⟩, hmeaning⟩

/-- What a call has reported while it found nothing. -/
theorem reported_of_turns_nil (ht : r.turns a = []) :
    (r.after a).reported = r.reported ++ Chunk.reports r.pos a := by
  induction a generalizing r with
  | nil => exact (List.append_nil _).symm
  | cons k ks ih =>
    obtain ⟨hk, hks⟩ := List.append_eq_nil_iff.1 ht
    have hk : r.turn? k = none := by simpa using hk
    show ((r.next k).after ks).reported = _
    rw [ih hks, next_of_none hk, Chunk.reports, List.append_assoc]

/-- Chunks in which nothing is found fill a gap. -/
theorem fillGap_of_turns_nil (hks : chunks c m text = a ++ more) (ht : r.turns a = [])
    {reported : List Message} (hreported : Chunk.reports r.pos a ⊆ reported) :
    FillGap c r.atLineStart reported r.pos (a.map Chunk.gapItem) (more.flatMap Chunk.bytes) ∧
      (r.after a).spaced = (r.spaced || (a.map Chunk.gapItem).any (·.spaces c)) := by
  induction a generalizing text r with
  | nil => exact ⟨trivial, (Bool.or_false _).symm⟩
  | cons k ks ih =>
    obtain ⟨hk, hrest⟩ := List.append_eq_nil_iff.1 ht
    have hk : r.turn? k = none := by simpa using hk
    rw [List.cons_append] at hks
    obtain ⟨-, -, after, -, -, -, -, hafter⟩ := exists_of_chunks_eq_cons c m hks
    obtain ⟨hone, hmore⟩ := List.append_subset.1 hreported
    obtain ⟨hfits, hspaces⟩ := fits_of_turn?_none hks hk hone
    obtain ⟨hfill, hspaced⟩ := ih hafter hrest (by rwa [pos_next])
    have hstart : (r.next k).atLineStart = r.atLineStart := by
      rw [next_of_none hk]
      rfl
    have hnext : (r.next k).spaced = (r.spaced || k.gapItem.spaces c) := by
      rw [next_of_none hk]
      exact congrArg (r.spaced || ·) (Bool.eq_iff_iff.2 (decide_eq_true_iff.trans hspaces))
    constructor
    · rw [hstart, pos_next, ← Chunk.bytes_gapItem] at hfill
      rw [List.flatMap_append, ← Chunk.flatMap_gapItem] at hfits
      exact ⟨hfits, hfill⟩
    · show ((r.next k).after ks).spaced = _
      rw [hspaced, hnext, List.map_cons, List.any_cons, Bool.or_assoc]

/-- The first chunk in which something is found, if there is one. -/
theorem first_turn (r : Reading) (ks : List Chunk) :
    r.turns ks = [] ∨
      ∃ a k more t, ks = a ++ k :: more ∧ r.turns a = [] ∧ (r.after a).turn? k = some t := by
  induction ks generalizing r with
  | nil => exact .inl rfl
  | cons k ks ih =>
    cases hk : r.turn? k with
    | some t => exact .inr ⟨[], k, ks, t, rfl, rfl, hk⟩
    | none =>
      rw [turns_of_none hk]
      rcases ih (r.next k) with hks | ⟨a, k', more, t, rfl, ha, ht⟩
      · exact .inl hks
      · refine .inr ⟨k :: a, k', more, t, rfl, ?_, ht⟩
        rwa [turns_of_none hk]

end Reading

/-! ### Calls and stretches -/

namespace Scanner

/-- A scanner past some bytes of its only source. -/
structure Within (start : Position) (before : List UInt8) (s : Scanner) : Prop where
  unforced : s.forcedEnd = false
  frame : ∃ f, s.input.frames = [f] ∧ f.failure = none
  pos : s.input.pos = start.past before

variable {start : Position} {before : List UInt8} {s : Scanner} {a more : List Chunk} {k : Chunk}

theorem Passes.of_turns_nil (h : s.Within start before)
    (hks : chunks s.config s.charmap s.input.unread = a ++ more)
    (ht : (s.reading false []).turns a = [])
    (hturn : ∃ new, s.turn.reported = ((s.reading false []).after a).reported ++ new)
    (hspaced : s.turn.found.spaced = ((s.reading false []).after a).spaced)
    (hpos : s.turn.found.pos = ((s.reading false []).after a).pos) :
    Passes start before s (a.map Chunk.gapItem) (more.flatMap Chunk.bytes) := by
  obtain ⟨new, hreported⟩ := hturn
  rw [Reading.reported_of_turns_nil ht] at hreported
  have hsub : Chunk.reports (s.reading false []).pos a ⊆ s.turn.reported := by
    rw [hreported]
    exact List.subset_append_left ..
  obtain ⟨hfill, hafter⟩ := Reading.fillGap_of_turns_nil hks ht hsub
  refine ⟨?_, ?_, ?_, ?_⟩
  · rw [Chunk.flatMap_gapItem, ← List.flatMap_append, ← hks, flatMap_chunks]
  · rw [← h.pos]
    exact hfill
  · rw [hspaced, hafter]
    exact Bool.false_or _
  · rw [hpos, Reading.pos_after, Position.past_append, ← h.pos, Chunk.flatMap_gapItem]
    rfl

/-- The call that finds the end. -/
theorem Passes.ended (h : s.Within start before)
    (ht : (s.reading false []).turns (chunks s.config s.charmap s.input.unread) = []) :
    (∃ gap, Passes start before s gap []) ∧ s.turn.found.token = .eof := by
  obtain ⟨f, hf, hread⟩ := h.frame
  have hahead : s.Ahead (s.reading false []) (chunks s.config s.charmap s.input.unread ++ []) :=
    ⟨h.unforced, (List.append_nil _).symm, rfl⟩
  have hend := hahead.after.step_last (frames_readTo hf _ _) hread
  have hcalls : s.callsFrom false [] _ = _ := hahead.callsFrom_append 1
  rw [ht, callsFrom_found hend (Diagnostics.add_nil _).symm, List.append_nil, ← calls_eq_callsFrom]
    at hcalls
  obtain ⟨hturn, -⟩ := List.cons.inj hcalls
  refine ⟨⟨_, Passes.of_turns_nil h (List.append_nil _).symm ht ?_ ?_ ?_⟩, ?_⟩
  · rw [hturn]
    exact ⟨[], (List.append_nil _).symm⟩
  · rw [hturn]
  · rw [hturn]
  · rw [hturn]

/-- A call that finds a token. -/
theorem Passes.token (h : s.Within start before)
    (hks : chunks s.config s.charmap s.input.unread = a ++ k :: more)
    (ht : (s.reading false []).turns a = []) {t : Turn}
    (hk : ((s.reading false []).after a).turn? k = some t) :
    Passes start before s (a.map Chunk.gapItem) (k.bytes ++ more.flatMap Chunk.bytes) ∧
      s.turn = t ∧ s.next = s.readTo (s.reading false []) (a ++ [k]) := by
  have hahead : s.Ahead (s.reading false []) (a ++ k :: more) := ⟨h.unforced, hks, rfl⟩
  have hcalls : s.callsFrom false [] _ = _ := hahead.callsFrom_append 1
  have hafter : s.afterFrom false _ = _ := hahead.afterFrom_append 0
  have hstep := hahead.after.step
  rw [hk, Option.isSome_some, if_pos rfl] at hstep
  obtain ⟨token, attr, -, hfound⟩ := Reading.turn_of_some hk
  have hcurrent : ((s.readTo (s.reading false []) a).readTo
      ((s.reading false []).after a) [k]).current = t.found := by
    show (Reading.next _ k).current = t.found
    rw [Reading.next_of_some hk]
  rw [ht, callsFrom_found hstep Ahead.diagnostics_readTo, hcurrent, ← calls_eq_callsFrom] at hcalls
  rw [ht, afterFrom_found hstep, readTo_readTo, ← after_eq_afterFrom] at hafter
  obtain ⟨hturn, -⟩ := List.cons.inj hcalls
  have hturn : s.turn = t := by rw [hturn, hfound]
  refine ⟨Passes.of_turns_nil h hks ht ?_ ?_ ?_, hturn, hafter⟩
  · rw [hturn, hfound]
    exact ⟨_, rfl⟩
  · rw [hturn, hfound]
  · rw [hturn, hfound]

/-- Past a stretch, the scanner is within the same source. -/
theorem Within.next (h : s.Within start before) {gap : List GapItem} {lexeme rest : List UInt8}
    (hp : Passes start before s gap (lexeme ++ rest)) {r : Reading} {ks : List Chunk}
    (hks : ks.flatMap Chunk.bytes = (Stretch.mk gap lexeme).bytes) (hnext : s.next = s.readTo r ks) :
    s.next.Within start (before ++ (Stretch.mk gap lexeme).bytes) ∧ s.next.input.unread = rest := by
  obtain ⟨f, hf, hread⟩ := h.frame
  have hunread : s.input.unread = (Stretch.mk gap lexeme).bytes ++ rest := by
    rw [hp.unread, Stretch.bytes, List.append_assoc]
  have hinput : s.next.input = s.input.advance (Stretch.mk gap lexeme).bytes.length := by
    rw [hnext, ← hks]
    rfl
  have hforced : s.next.forcedEnd = false := by
    rw [hnext]
    exact h.unforced
  refine ⟨⟨hforced, ⟨f.advance (Stretch.mk gap lexeme).bytes.length, ?_, hread⟩, ?_⟩, ?_⟩
  · rw [hinput]
    exact InputStack.frames_advance hf _
  · rw [hinput, InputStack.pos_advance, hunread, List.take_left, h.pos, Position.past_append]
  · rw [hinput, InputStack.unread_advance, hunread, List.drop_left]

/-- Every call either finds the end or takes a stretch. -/
theorem Within.splits {before : List UInt8} {s : Scanner} (h : s.Within start before) :
    ∃ stretches last, Splits start before s stretches last s.turns.1 := by
  rcases (s.reading false []).first_turn (chunks s.config s.charmap s.input.unread) with
    ht | ⟨a, k, more, t, hks, ht, hk⟩
  · obtain ⟨⟨gap, hp⟩, heof⟩ := Passes.ended h ht
    rw [turns_of_eof heof]
    exact ⟨[], gap, .ended hp heof⟩
  · obtain ⟨hp, hturn, hnext⟩ := Passes.token h hks ht hk
    have hmem : k ∈ chunks s.config s.charmap s.input.unread := by
      rw [hks]
      exact List.mem_append_right a (List.mem_cons_self ..)
    have hlexeme : k.bytes ≠ [] := bytes_ne_nil_of_mem_chunks _ _ hmem
    have hne : s.turn.found.token ≠ .eof := by
      rw [hturn]
      refine Reading.token_ne_eof (r := (s.reading false []).after a)
        (List.cons_subset.2 ⟨hmem, List.nil_subset _⟩) ?_
      rw [Reading.turns_of_some hk]
      exact List.mem_cons_self ..
    have hbytes : (a ++ [k]).flatMap Chunk.bytes =
        (Stretch.mk (a.map Chunk.gapItem) k.bytes).bytes := by
      simp [Stretch.bytes, Chunk.flatMap_gapItem]
    obtain ⟨hwithin, hrest⟩ := h.next hp hbytes hnext
    obtain ⟨stretches, last, hsplits⟩ := hwithin.splits
    rw [turns_of_ne_eof hne]
    exact ⟨_, last, .token hp hlexeme hne hrest hsplits⟩
termination_by s.input.remaining
decreasing_by exact next_lt s hne

/-- **A text is cut into gaps and lexemes that alternate**, one lexeme for each token up to the
end. -/
theorem splits_ofText (c : Config) (m : Charmap) (name : String) (loc : Location)
    (text : List UInt8) :
    ∃ stretches last,
      text = stretches.flatMap Stretch.bytes ++ last.flatMap GapItem.bytes ∧
        Splits ⟨name, loc⟩ [] (ofText c m name loc text) stretches last
          (ofText c m name loc text).turns.1 := by
  have hwithin : (ofText c m name loc text).Within ⟨name, loc⟩ [] := ⟨rfl, ⟨_, rfl, rfl⟩, rfl⟩
  obtain ⟨stretches, last, h⟩ := hwithin.splits
  exact ⟨stretches, last, h.unread, h⟩

/-- Items that make up a lone backslash have nothing that is passed over. -/
theorem skipped_not_mem_backslash {c : Config} {start : Bool} {reported : List Message}
    {pos : Position} {gap : List GapItem} {after : List UInt8}
    (hfill : FillGap c start reported pos gap after)
    (hbytes : gap.flatMap GapItem.bytes = [Byte.backslash]) (bytes : List UInt8) :
    .skipped bytes ∉ gap := by
  cases gap with
  | nil => exact List.not_mem_nil
  | cons item more =>
    obtain ⟨hfits, hmore⟩ := hfill
    rw [List.flatMap_cons] at hbytes
    rcases List.append_eq_singleton_iff.1 hbytes with ⟨hnil, -⟩ | ⟨hitem, hrest⟩
    · exact absurd hnil hfits.bytes_ne_nil
    · rw [hmore.eq_nil hrest, List.mem_singleton]
      rintro rfl
      exact (Skipped.ne hfits).2 hitem

/-- A backslash that joins no lines is reported, and the token after it is set off although nothing
was passed over. -/
theorem backslash_spaces :
    let s := ofBytes {features := {lineCont := true}} "t.s" [Byte.backslash, Byte.lowerA]
    s.turn.found = ⟨.registerA, .none, true, ⟨"t.s", ⟨1, 2⟩⟩⟩ ∧
      ∀ gap rest, s.input.unread = gap.flatMap GapItem.bytes ++ rest →
        FillGap s.config s.atLineStart s.turn.reported s.input.pos gap rest →
        s.turn.found.pos = s.input.pos.past (gap.flatMap GapItem.bytes) →
        ∀ bytes, GapItem.skipped bytes ∉ gap := by
  intro s
  have hnext : s.next = _ := (scan_onward rfl).trans (scan_found rfl)
  have hturn : s.turn.found = ⟨.registerA, .none, true, ⟨"t.s", ⟨1, 2⟩⟩⟩ := by
    show s.next.current = _
    rw [hnext]
    rfl
  refine ⟨hturn, fun gap rest hunread hfill hpos bytes => ?_⟩
  refine skipped_not_mem_backslash hfill ?_ bytes
  -- Of the text's two bytes the gap has as many as the token's column tells.
  have hsplit : [Byte.backslash, Byte.lowerA] = gap.flatMap GapItem.bytes ++ rest := hunread
  have htake : gap.flatMap GapItem.bytes =
      [Byte.backslash, Byte.lowerA].take (gap.flatMap GapItem.bytes).length := by
    rw [hsplit, List.take_left]
  rw [hturn, htake] at hpos
  rw [htake]
  match (gap.flatMap GapItem.bytes).length, hpos with
  | 0, hpos => exact absurd hpos (by decide)
  | 1, _ => rfl
  | n + 2, hpos =>
    rw [List.take_succ_cons, List.take_succ_cons, List.take_nil] at hpos
    exact absurd hpos (by decide)

end Scanner
end AsmScan
