import AsmScan.Proofs.Lexeme.Alone
import AsmScan.Proofs.Location
import AsmScan.Proofs.Scanner.Split

/-! The locality theorem.

A token depends on its own bytes alone. `turn_alone` takes a call of a scan that finds
a token, cuts the token's bytes out of the text, and scans them by themselves: the
same token is found, with the same attribute, and after it the end. What the call has
reported falls in two: what was wrong before the token, and is reported before it, and
what is wrong with the token, and is reported again when it stands alone, at the same
distances from its first byte. -/
namespace AsmScan

/-! ### What is reported before a token -/

namespace Reading
variable {c : Config} {m : Charmap} {r : Reading} {k : Chunk} {text : List UInt8}
  {a more : List Chunk}

theorem not_isToken_of_turn?_none (ht : r.turn? k = none) : ¬ k.lexeme.IsToken := by
  rintro ⟨t, attr, hl⟩
  simp [turn?, token?, hl] at ht

/-- Off the ends of lines, the token found is what the chunk means. -/
theorem meaning_of_token? {t : Token} {attr : Attr} (ht : r.token? k = some (t, attr))
    (hne : t ≠ .separator) : k.lexeme.meaning = .token t attr := by
  unfold token? at ht
  split at ht
  · contradiction
  · contradiction
  · split at ht
    · contradiction
    · cases ht
      exact absurd rfl hne
  next hm =>
    cases ht
    exact hm

/-- What is wrong before a token is reported before it. -/
theorem compare_of_mem_reports (hks : chunks c m text = a ++ more) (ht : r.turns a = [])
    {msg : Message} (hmsg : msg ∈ Chunk.reports r.pos a) :
    compare msg.pos.loc (r.pos.past (a.flatMap Chunk.bytes)).loc = .lt := by
  induction a generalizing text r with
  | nil => contradiction
  | cons k ks ih =>
    obtain ⟨hk, hrest⟩ := List.append_eq_nil_iff.1 ht
    have hk : r.turn? k = none := by simpa using hk
    rw [List.cons_append] at hks
    obtain ⟨first, rest, after, -, -, hread, -, hafter⟩ := exists_of_chunks_eq_cons c m hks
    have hmem : k ∈ chunks c m text := hks ▸ List.mem_cons_self ..
    have hbytes : k.bytes ≠ [] := bytes_ne_nil_of_mem_chunks c m hmem
    have hone : compare r.pos.loc (r.pos.past k.bytes).loc = .lt := r.pos.loc.compare_past hbytes
    rw [List.flatMap_cons, Position.past_append]
    rcases List.mem_append.1 hmsg with hmsg | hmsg
    · obtain ⟨f, hf, rfl⟩ := List.mem_map.1 hmsg
      have hoffset : f.offset = 0 := by
        have hfaulty := not_isToken_of_turn?_none hk
        rw [hread] at hfaulty hf
        exact Lexeme.faultyAtStart_read hfaulty f hf
      have hloc : (f.message r.pos).pos.loc = r.pos.loc := by
        show r.pos.loc.right f.offset = r.pos.loc
        rw [hoffset]
        rfl
      rw [hloc]
      by_cases hks : ks.flatMap Chunk.bytes = []
      · rw [hks]
        exact hone
      · exact Location.compare_trans hone (Location.compare_past _ hks)
    · rw [← pos_next r k] at hmsg ⊢
      exact ih hafter hrest hmsg

end Reading

/-! ### A lexeme alone -/

/-- The bytes of a chunk are one chunk by themselves. -/
theorem chunks_bytes {c : Config} {m : Charmap} {text : List UInt8} {k : Chunk} {more : List Chunk}
    (h : chunks c m text = k :: more) : chunks c m k.bytes = [k] := by
  cases text with
  | nil =>
    rw [chunks_nil] at h
    contradiction
  | cons first rest =>
    rw [chunks_cons] at h
    obtain ⟨rfl, -⟩ := List.cons.inj h
    let l := Lexeme.read c m first rest
    have hbytes : (first :: rest).take l.size = first :: rest.take (l.size - 1) := by
      rw [← List.take_succ_cons, Nat.sub_add_cancel l.size_pos]
    have hlength : (first :: rest.take (l.size - 1)).length ≤ l.size := by
      rw [← hbytes]
      exact List.length_take_le ..
    show chunks c m ((first :: rest).take l.size) = [⟨(first :: rest).take l.size, l⟩]
    rw [hbytes, chunks_cons, Lexeme.read_alone, List.take_of_length_le hlength,
      List.drop_of_length_le hlength, chunks_nil]

namespace Scanner

/-- A chunk that is a token is found by itself, and then the end. -/
theorem turns_bytes {c : Config} {m : Charmap} {text : List UInt8} {k : Chunk} {more : List Chunk}
    (h : chunks c m text = k :: more) {t : Token} {attr : Attr}
    (hl : k.lexeme.meaning = .token t attr) (name : String) (loc : Location) :
    (ofText c m name loc k.bytes).turns.1 =
      [⟨k.lexeme.messages ⟨name, loc⟩, ⟨t, attr, false, ⟨name, loc⟩⟩⟩,
       ⟨[], ⟨.eof, .none, false, ⟨name, loc.past k.bytes⟩⟩⟩] := by
  let r : Reading := ⟨⟨.initial, .none, false, ⟨name, loc⟩⟩, false, [], ⟨name, loc⟩⟩
  have hturn : r.turn? k =
      some ⟨k.lexeme.messages ⟨name, loc⟩, ⟨t, attr, false, ⟨name, loc⟩⟩⟩ := by
    simp only [Reading.turn?, Reading.token?, hl, Option.map_some, r, List.nil_append]
  have hended : (r.after [k]).ended = ⟨[], ⟨.eof, .none, false, ⟨name, loc.past k.bytes⟩⟩⟩ := by
    show (r.next k).ended = _
    rw [Reading.next_of_some hturn]
    rfl
  rw [turns_ofText, chunks_bytes h]
  show r.turns [k] ++ [(r.after [k]).ended] = _
  rw [Reading.turns_of_some hturn, hended]
  rfl

/-! ### The calls of a scan -/

/-- A scanner that has some bytes of a text behind it and the others before it. -/
structure Midway (c : Config) (m : Charmap) (start : Position) (text before : List UInt8)
    (s : Scanner) : Prop extends s.Within start before where
  text : text = before ++ s.input.unread
  config : s.config = c
  charmap : s.charmap = m

section Midway
variable {c : Config} {m : Charmap} {start : Position} {text before : List UInt8} {s : Scanner}

/-- Past some chunks a scanner is further on in the same text. -/
theorem Midway.readTo (h : s.Midway c m start text before) {a more : List Chunk}
    (hks : chunks c m s.input.unread = a ++ more) (r : Reading) (o : Occurrence) :
    Midway c m start text (before ++ a.flatMap Chunk.bytes) {s.readTo r a with current := o} := by
  obtain ⟨f, hf, hread⟩ := h.frame
  have hunread : s.input.unread = a.flatMap Chunk.bytes ++ more.flatMap Chunk.bytes := by
    rw [← List.flatMap_append, ← hks, flatMap_chunks]
  refine ⟨⟨h.unforced, ⟨_, frames_readTo hf r a, hread⟩, ?_⟩, ?_, h.config, h.charmap⟩
  · show (s.input.advance _).pos = _
    rw [InputStack.pos_advance, hunread, List.take_left, h.pos, Position.past_append]
  · show text = _ ++ (s.input.advance _).unread
    rw [InputStack.unread_advance, hunread, List.drop_left, List.append_assoc, ← hunread, h.text]

/-- The call that finds a token leaves the scanner past the chunk that is the token. -/
theorem Midway.next_of_turn (h : s.Midway c m start text before) {a more : List Chunk} {k : Chunk}
    (hks : chunks c m s.input.unread = a ++ k :: more)
    (hnext : s.next = s.readTo (s.reading false []) (a ++ [k])) :
    s.next.Midway c m start text (before ++ (a ++ [k]).flatMap Chunk.bytes) := by
  have htaken : chunks c m s.input.unread = a ++ [k] ++ more := by
    rw [hks, List.append_assoc, List.singleton_append]
  rw [hnext]
  exact h.readTo htaken _ _

theorem Midway.exists_next (h : s.Midway c m start text before) :
    ∃ before, s.next.Midway c m start text before := by
  let r := s.reading false []
  let ks := chunks s.config s.charmap s.input.unread
  have hc : chunks c m s.input.unread = ks := by rw [← h.config, ← h.charmap]
  rcases r.first_turn ks with ht | ⟨a, k, more, t, hks, ht, hk⟩
  · obtain ⟨f, hf, hread⟩ := h.frame
    have hahead : s.Ahead r (ks ++ []) := ⟨h.unforced, (List.append_nil _).symm, rfl⟩
    have hend := hahead.after.step_last (frames_readTo hf r ks) hread
    have hafter : s.afterFrom false _ = _ := hahead.afterFrom_append 0
    rw [ht, afterFrom_found hend] at hafter
    have hnext : s.next = _ := hafter
    rw [hnext]
    exact ⟨_, h.readTo (hc.trans (List.append_nil ks).symm) r _⟩
  · obtain ⟨-, -, hnext⟩ := Passes.token h.toWithin hks ht hk
    exact ⟨_, h.next_of_turn (hc.trans hks) hnext⟩

/-- However many calls are made, the scanner is somewhere in the text. -/
theorem exists_midway_after (c : Config) (m : Charmap) (name : String) (loc : Location)
    (text : List UInt8) (n : Nat) :
    ∃ before, ((ofText c m name loc text).after n).Midway c m ⟨name, loc⟩ text before := by
  have hafter (s : Scanner) (h : ∃ before, s.Midway c m ⟨name, loc⟩ text before) :
      ∃ before, (s.after n).Midway c m ⟨name, loc⟩ text before := by
    induction n generalizing s with
    | zero => exact h
    | succ n ih =>
      obtain ⟨before, h⟩ := h
      exact ih s.next h.exists_next
  exact hafter _ ⟨[], ⟨⟨rfl, ⟨_, rfl, rfl⟩, rfl⟩, rfl, rfl, rfl⟩⟩

end Midway

/-- The next call of a scan of a text finds a token that is the same by itself. The bytes of the token
are cut out of the text; scanned anywhere, they are that token with the same attribute, and nothing
more. What was reported of the token is reported again, at the same distances from its first byte.
All else that the call has reported stands before the token. -/
def FindsLocally (c : Config) (m : Charmap) (start : Position) (text : List UInt8) (s : Scanner) :
    Prop :=
  ∃ (before lexeme : List UInt8) (earlier : List Message) (findings : List Finding),
    text = before ++ lexeme ++ s.next.input.unread ∧
    s.turn.found.pos = start.past before ∧
    s.turn.reported = earlier ++ findings.map (·.message s.turn.found.pos) ∧
    (∀ msg ∈ earlier, compare msg.pos.loc s.turn.found.pos.loc = .lt) ∧
    ∀ name loc, (ofText c m name loc lexeme).turns.1 =
      [⟨findings.map (·.message ⟨name, loc⟩),
          ⟨s.turn.found.token, s.turn.found.attr, false, ⟨name, loc⟩⟩⟩,
       ⟨[], ⟨.eof, .none, false, ⟨name, loc.past lexeme⟩⟩⟩]

/-- **A token depends on its own bytes alone**, whatever stands before and behind them. -/
theorem turn_alone (c : Config) (m : Charmap) (name : String) (loc : Location) (text : List UInt8)
    (n : Nat) :
    let s := (ofText c m name loc text).after n
    s.turn.found.token ≠ .separator → s.turn.found.token ≠ .eof →
      FindsLocally c m ⟨name, loc⟩ text s := by
  intro s hseparator heof
  obtain ⟨before, h⟩ := exists_midway_after c m name loc text n
  let r := s.reading false []
  rcases r.first_turn (chunks s.config s.charmap s.input.unread) with
    ht | ⟨a, k, more, turn, hks, ht, hk⟩
  · exact absurd (Passes.ended h.toWithin ht).2 heof
  obtain ⟨-, hturn, hnext⟩ := Passes.token h.toWithin hks ht hk
  obtain ⟨token, attr, htoken, rfl⟩ := Reading.turn_of_some hk
  rw [hturn] at hseparator
  have hmeaning := Reading.meaning_of_token? htoken hseparator
  have hahead : s.Ahead r (a ++ k :: more) := ⟨h.unforced, hks, rfl⟩
  have hpos : (r.after a).pos = ⟨name, loc.past (before ++ a.flatMap Chunk.bytes)⟩ := by
    rw [Reading.pos_after, show r.pos = s.input.pos from rfl, h.pos, ← Position.past_append]
    rfl
  refine ⟨before ++ a.flatMap Chunk.bytes, k.bytes, (r.after a).reported, k.lexeme.findings,
    ?_, ?_, ?_, fun msg hmsg => ?_, fun name' loc' => ?_⟩
  · rw [h.config, h.charmap] at hks
    have htext := (h.next_of_turn hks hnext).text
    simpa using htext
  · rw [hturn]
    exact hpos
  · rw [hturn]
    rfl
  · rw [Reading.reported_of_turns_nil ht] at hmsg
    rw [hturn]
    show compare msg.pos.loc (r.after a).pos.loc = .lt
    rw [Reading.pos_after]
    exact Reading.compare_of_mem_reports hks ht hmsg
  · have hchunks := hahead.after.chunks
    rw [show (s.readTo r a).config = c from h.config, show (s.readTo r a).charmap = m from h.charmap]
      at hchunks
    rw [hturn]
    exact turns_bytes hchunks hmeaning name' loc'

/-- A stray byte, and then a string that its line cuts off. -/
theorem turn_alone_cut :
    let text : List UInt8 := [0x60, Byte.doubleQuote, Byte.lowerA, Byte.lineFeed, Byte.lowerA]
    let s := (ofText {} default "t.s" .start text).after 0
    s.turn.found.token ≠ .separator ∧ s.turn.found.token ≠ .eof ∧
      FindsLocally {} default ⟨"t.s", .start⟩ text s := by
  intro text s
  have hnext : s.next = _ := (scan_onward rfl).trans (scan_found rfl)
  have htoken : s.turn.found.token = .strConst := by
    show s.next.current.token = _
    rw [hnext]
  have hseparator : s.turn.found.token ≠ .separator := by
    rw [htoken]
    decide
  have heof : s.turn.found.token ≠ .eof := by
    rw [htoken]
    decide
  exact ⟨hseparator, heof, turn_alone {} default "t.s" .start text 0 hseparator heof⟩

end Scanner
end AsmScan
