import AsmScan.Proofs.Input.Stack
import AsmScan.Proofs.Scanner.Chunk

/-! The calls that read the top frame.

As long as the top frame has bytes left, a step takes the next chunk off it, and it
is the reading that tells whether a token was found (`step_chunk`). So the calls of a
frame are the turns of its chunks, and the calls that follow them start from the
reading that the chunks leave (`callsFrom_chunks`). A text that stands alone is
scanned chunk by chunk up to the end of input (`turns_alone`). -/
namespace AsmScan

@[simp] theorem InputStack.pos_advance (s : InputStack) (n : Nat) :
    (s.advance n).pos = s.pos.past (s.unread.take n) := by
  obtain ⟨frames, last⟩ := s
  cases frames with
  | nil =>
    simp only [InputStack.unread, InputStack.top?, List.head?_nil, Option.map_none,
      Option.getD_none, List.take_nil]
    rfl
  | cons => rfl

namespace Scanner

/-! ### Reading on -/

/-- Where a call has come to that has passed something over or not, and has reported something. -/
def reading (s : Scanner) (spaced : Bool) (reported : List Message) : Reading :=
  ⟨s.current, spaced, reported, s.input.pos⟩

/-- The scanner past some chunks of the top frame, when a call had come to a reading. -/
def readTo (s : Scanner) (r : Reading) (ks : List Chunk) : Scanner :=
  { s with
    input := s.input.advance (ks.flatMap Chunk.bytes).length
    current := (r.after ks).current
    diagnostics := s.diagnostics.add (Chunk.reports r.pos ks) }

theorem readTo_nil (s : Scanner) (spaced : Bool) (reported : List Message) :
    s.readTo (s.reading spaced reported) [] = s := by
  have hinput : s.input.advance 0 = s.input := by
    obtain ⟨⟨frames, last⟩, _⟩ := s
    cases frames <;> rfl
  simp only [readTo, List.flatMap_nil, List.length_nil, hinput, Chunk.reports,
    Diagnostics.add_nil]
  rfl

theorem readTo_readTo (s : Scanner) (r : Reading) (a b : List Chunk) :
    (s.readTo r a).readTo (r.after a) b = s.readTo r (a ++ b) := by
  simp only [readTo, InputStack.advance_advance, Diagnostics.add_add, Reading.after_append,
    Reading.pos_after, Chunk.reports_append, List.flatMap_append, List.length_append]

/-- A call has come to a reading, and some chunks of the top frame lie ahead. -/
structure Ahead (s : Scanner) (r : Reading) (ks : List Chunk) : Prop where
  unforced : s.forcedEnd = false
  chunks : chunks s.config s.charmap s.input.unread = ks
  reading : r = s.reading r.spaced r.reported

namespace Ahead
variable {s : Scanner} {r : Reading} {k : Chunk} {a ks more : List Chunk}

theorem pos (h : s.Ahead r ks) : r.pos = s.input.pos := by
  rw [h.reading]
  rfl

theorem current (h : s.Ahead r ks) : r.current = s.current := by
  rw [h.reading]
  rfl

theorem unread (h : s.Ahead r ks) : s.input.unread = ks.flatMap Chunk.bytes := by
  rw [← h.chunks, flatMap_chunks]

/-- Past a chunk, the others lie ahead. -/
theorem next (h : s.Ahead r (k :: ks)) : (s.readTo r [k]).Ahead (r.next k) ks := by
  obtain ⟨_, _, after, hafter, -, -, -, hmore⟩ := exists_of_chunks_eq_cons _ _ h.chunks
  have hone : [k].flatMap Chunk.bytes = k.bytes := by
    rw [List.flatMap_cons, List.flatMap_nil, List.append_nil]
  refine ⟨h.unforced, ?_, ?_⟩
  · show AsmScan.chunks s.config s.charmap (s.input.advance _).unread = ks
    rw [InputStack.unread_advance, hafter, hone, List.drop_left, hmore]
  · have : (s.readTo r [k]).input.pos = (r.next k).pos := by
      show (s.input.advance _).pos = _
      rw [InputStack.pos_advance, hafter, hone, List.take_left, Reading.pos_next, h.pos]
    simp only [Scanner.reading, this]
    rfl

/-- Past some chunks, the others lie ahead. -/
theorem after (h : s.Ahead r (a ++ more)) : (s.readTo r a).Ahead (r.after a) more := by
  induction a generalizing s r with
  | nil =>
    rw [h.reading, readTo_nil, ← h.reading]
    exact h
  | cons k ks ih =>
    have := ih h.next
    rwa [show (s.readTo r [k]).readTo (r.next k) ks = s.readTo r (k :: ks) from
      readTo_readTo s r [k] ks] at this

/-- What a step makes of the chunk next ahead. -/
theorem step (h : s.Ahead r (k :: ks)) :
    s.step r.spaced =
      if (r.turn? k).isSome then .found (s.readTo r [k])
      else .onward (r.next k).spaced (s.readTo r [k]) := by
  obtain ⟨first, rest, after, -, hu, hl, hlen, -⟩ := exists_of_chunks_eq_cons _ _ h.chunks
  have hstep : s.step r.spaced = s.takeLexeme r.spaced k.lexeme := by
    rw [step_read h.unforced hu, hl]
  have hpast : s.readTo r [k] = {s.past k.lexeme with current := (r.next k).current} := by
    simp only [past, readTo, List.flatMap_cons, List.flatMap_nil, List.append_nil, hlen, h.pos,
      Chunk.reports]
    rfl
  have hstart : r.atLineStart = s.atLineStart := by
    rw [h.reading]
    rfl
  rw [hstep, takeLexeme_eq, hpast, ← h.pos]
  cases hm : k.lexeme.meaning with
  | blank => simp [Reading.turn?, Reading.token?, Reading.next, hm, h.current, past]
  | rejected => simp [Reading.turn?, Reading.token?, Reading.next, hm, h.current, past]
  | token t attr => simp [Reading.turn?, Reading.token?, Reading.next, hm, emit, past]
  | lineEnd =>
    cases hs : s.atLineStart <;>
      simp [Reading.turn?, Reading.token?, Reading.next, hm, hstart, hs, h.current, emit, past]

theorem diagnostics_readTo :
    (s.readTo r [k]).diagnostics = s.diagnostics.add (k.lexeme.messages r.pos) := by
  simp only [readTo, Chunk.reports, List.append_nil]

/-- The calls from before a chunk on. -/
theorem callsFrom_cons (h : s.Ahead r (k :: ks)) (n : Nat) :
    s.callsFrom r.spaced r.reported ((r.turn? k).toList.length + n) =
      (r.turn? k).toList ++
        (s.readTo r [k]).callsFrom (r.next k).spaced (r.next k).reported n := by
  have hstep := h.step
  cases ht : r.turn? k with
  | none =>
    rw [ht] at hstep
    rw [callsFrom_onward hstep diagnostics_readTo, Reading.next_of_none ht, Option.toList_none,
      List.length_nil, Nat.zero_add, List.nil_append]
  | some t =>
    rw [ht] at hstep
    obtain ⟨token, attr, -, hturn⟩ := Reading.turn_of_some ht
    have hcurrent : (s.readTo r [k]).current = t.found := by
      show (r.next k).current = t.found
      rw [Reading.next_of_some ht]
    rw [Option.toList_some, List.length_singleton, Nat.add_comm,
      callsFrom_found hstep diagnostics_readTo, hcurrent, calls_eq_callsFrom,
      Reading.next_of_some ht, hturn]
    rfl

theorem afterFrom_cons (h : s.Ahead r (k :: ks)) (n : Nat) :
    s.afterFrom r.spaced ((r.turn? k).toList.length + (n + 1)) =
      (s.readTo r [k]).afterFrom (r.next k).spaced (n + 1) := by
  have hstep := h.step
  cases ht : r.turn? k with
  | none =>
    rw [ht] at hstep
    rw [Option.toList_none, List.length_nil, Nat.zero_add, afterFrom_onward hstep]
  | some t =>
    rw [ht] at hstep
    rw [Option.toList_some, List.length_singleton, Nat.add_comm 1, afterFrom_found hstep,
      after_eq_afterFrom, Reading.next_of_some ht]

/-- **The calls of some chunks are their turns**, and what the chunks leave is taken over by the
calls that follow. -/
theorem callsFrom_append (h : s.Ahead r (a ++ more)) (n : Nat) :
    s.callsFrom r.spaced r.reported ((r.turns a).length + n) =
      r.turns a ++ (s.readTo r a).callsFrom (r.after a).spaced (r.after a).reported n := by
  induction a generalizing s r with
  | nil =>
    rw [h.reading, readTo_nil, ← h.reading]
    simp only [Reading.turns, List.length_nil, Nat.zero_add, List.nil_append]
    rfl
  | cons k ks ih =>
    have hrest := ih h.next
    rw [show (s.readTo r [k]).readTo (r.next k) ks = s.readTo r (k :: ks) from
      readTo_readTo s r [k] ks] at hrest
    rw [Reading.turns, List.length_append, Nat.add_assoc, h.callsFrom_cons, hrest,
      List.append_assoc]
    rfl

/-- The scanner after the calls of some chunks and at least one that follows. -/
theorem afterFrom_append (h : s.Ahead r (a ++ more)) (n : Nat) :
    s.afterFrom r.spaced ((r.turns a).length + (n + 1)) =
      (s.readTo r a).afterFrom (r.after a).spaced (n + 1) := by
  induction a generalizing s r with
  | nil =>
    rw [h.reading, readTo_nil, ← h.reading]
    simp only [Reading.turns, List.length_nil, Nat.zero_add]
    rfl
  | cons k ks ih =>
    have hrest := ih h.next
    rw [show (s.readTo r [k]).readTo (r.next k) ks = s.readTo r (k :: ks) from
      readTo_readTo s r [k] ks] at hrest
    rw [Reading.turns, List.length_append, Nat.add_assoc, ← Nat.add_assoc _ n 1, h.afterFrom_cons,
      Nat.add_assoc, hrest]
    rfl

/-! ### The end of the frame -/

theorem step_ended (h : s.Ahead r []) : s.step r.spaced = s.leaveEnded r.spaced :=
  step_leave h.unforced h.unread r.spaced

theorem failure?_of_failure {f : Frame} {below : List Frame} (hs : s.input.frames = f :: below)
    (hread : f.failure = none) : s.input.failure? = none := by
  rw [InputStack.failure?_of_frames hs, Frame.pending?, hread, ite_self, Option.map_none]

/-- The end of the only frame is the end of input. -/
theorem step_last (h : s.Ahead r []) {f : Frame} (hs : s.input.frames = [f])
    (hread : f.failure = none) :
    s.step r.spaced = .found {s with current := ⟨.eof, .none, r.spaced, r.pos⟩} := by
  rw [h.step_ended, leaveEnded, failure?_of_failure hs hread, hs, h.pos]
  rfl

/-- At the end of a frame that covers others, the scan goes on in the one below it. Only a file
whose last line has no end yet ends that line first. -/
theorem step_covering (h : s.Ahead r []) {f g : Frame} {below : List Frame}
    (hs : s.input.frames = f :: g :: below) (hread : f.failure = none) :
    s.step r.spaced =
      if f.isFile && !r.atLineStart then
        .found {s with input := ⟨g :: below, f.pos⟩, current := ⟨.separator, .none, r.spaced, r.pos⟩}
      else .onward r.spaced {s with input := ⟨g :: below, f.pos⟩} := by
  have hstart : r.atLineStart = s.atLineStart := by
    rw [h.reading]
    rfl
  rw [h.step_ended, leaveEnded_covering _ (failure?_of_failure hs hread) hs, h.pos, hstart]

end Ahead

/-! ### A text alone -/

theorem frames_readTo {s : Scanner} {f : Frame} {below : List Frame}
    (hs : s.input.frames = f :: below) (r : Reading) (ks : List Chunk) :
    (s.readTo r ks).input.frames = f.advance (ks.flatMap Chunk.bytes).length :: below :=
  InputStack.frames_advance hs _

section Alone
variable {s : Scanner} {f : Frame}

/-- The chunks of the only source lie ahead, and nothing after them. -/
theorem ahead_alone (hf : s.forcedEnd = false) (hs : s.input.frames = [f]) :
    s.Ahead (s.reading false []) (chunks s.config s.charmap f.unread ++ []) := by
  exact ⟨hf, by rw [InputStack.unread_of_frames hs, List.append_nil], rfl⟩

/-- The only source is scanned chunk by chunk up to the step that finds its end. -/
theorem turns_of_end {t : Scanner} {new : List Message} (hf : s.forcedEnd = false)
    (hs : s.input.frames = [f]) :
    let r := s.reading false []
    let ks := chunks s.config s.charmap f.unread
    (s.readTo r ks).step (r.after ks).spaced = .found t → t.current.token = .eof →
      t.diagnostics = (s.readTo r ks).diagnostics.add new →
      s.turns.1 = r.turns ks ++ [⟨(r.after ks).reported ++ new, t.current⟩] := by
  intro r ks hend heof hnew
  have hcalls : s.calls ((r.turns ks).length + 1) =
      r.turns ks ++ [⟨(r.after ks).reported ++ new, t.current⟩] := by
    rw [calls_eq_callsFrom]
    apply ((ahead_alone hf hs).callsFrom_append 1).trans
    rw [callsFrom_found hend hnew]
    rfl
  have hne : ∀ t ∈ r.turns ks, t.found.token ≠ .eof := fun t ht =>
    Reading.token_ne_eof (fun k hk => hk) ht
  rw [turns_eq_calls hcalls hne heof]

/-- **A text alone is scanned chunk by chunk**, and what its last chunks leave goes to the end of
input. -/
theorem turns_alone (hf : s.forcedEnd = false) (hs : s.input.frames = [f])
    (hread : f.failure = none) :
    let r := s.reading false []
    let ks := chunks s.config s.charmap f.unread
    s.turns.1 = r.turns ks ++ [(r.after ks).ended] := by
  intro r ks
  have hend := (ahead_alone hf hs).after.step_last (frames_readTo hs r ks) hread
  rw [turns_of_end hf hs hend rfl (Diagnostics.add_nil _).symm, List.append_nil]
  rfl

end Alone

/-- A scanner of a text in memory, located from somewhere in a named source. -/
def ofText (c : Config) (m : Charmap) (name : String) (loc : Location) (text : List UInt8) :
    Scanner :=
  {ofInput c (.ofFrame (.ofBytes name loc text)) with charmap := m}

/-- A scan of a text begins with nothing found. -/
theorem turns_ofText (c : Config) (m : Charmap) (name : String) (loc : Location)
    (text : List UInt8) :
    let r : Reading := ⟨⟨.initial, .none, false, ⟨name, loc⟩⟩, false, [], ⟨name, loc⟩⟩
    (ofText c m name loc text).turns.1 =
      r.turns (chunks c m text) ++ [(r.after (chunks c m text)).ended] :=
  turns_alone (s := ofText c m name loc text) (f := .ofBytes name loc text) rfl rfl rfl

end Scanner
end AsmScan
