import AsmScan.Proofs.Scanner.Enter
import AsmScan.Proofs.Scanner.Line

/-! The last line of a file.

A file that is entered ends its last line, whether a line feed stands there or not
(`calls_lastLine`). With the line feed the line is ended by a lexeme of the file, and
the end of the file comes upon an empty line; without it the end of the file ends the
line. Either way there is a separator only if something stands on the line, and it
stands where the line has come to. So the two can be told apart at most by what the next
token below the file is said to come after. -/
namespace AsmScan.Scanner

/-- The call without regard to what was passed over before its token. -/
def Turn.bare (t : Turn) : Turn := {t with found := t.found.bare}

/-- The calls from the end of a file on, the first of which has come to a reading there: the line is
ended if something stands on it, and the sources below are resumed. -/
def resumed (s : Scanner) (r : Reading) (n : Nat) : List Turn :=
  if r.atLineStart then
    ((s.withPrevious r.current.token).calls (n + 1)).modifyHead (.led r.spaced r.reported)
  else
    ⟨r.reported, ⟨.separator, .none, r.spaced, r.pos⟩⟩ :: (s.withPrevious .separator).calls n

/-- The reading of a file of which nothing has been read. -/
def beginning (s : Scanner) (path : String) : Reading := ⟨s.current, false, [], ⟨path, .start⟩⟩

/-- The calls of a scanner that has a file entered. -/
theorem calls_withFile {s : Scanner} (hforced : s.forcedEnd = false) (hs : s.input.frames ≠ [])
    (path : String) {text : List UInt8} {ks : List Chunk}
    (hks : chunks s.config s.charmap text = ks) (n : Nat) :
    (s.withFrame (.ofFile path ⟨text, none⟩)).calls (((s.beginning path).turns ks).length + (n + 1)) =
      (s.beginning path).turns ks ++ s.resumed ((s.beginning path).after ks) n := by
  subst hks
  let f : Frame := .ofFile path ⟨text, none⟩
  let r := s.beginning path
  let ks := chunks s.config s.charmap text
  obtain ⟨inside, ended, h⟩ : ∃ inside ended, Composes s (s.withFrame f) f inside ended :=
    composes_withFrame hforced hs rfl
  have halone : inside ++ [ended] = r.turns ks ++ [(r.after ks).ended] :=
    h.alone.symm.trans (turns_alone (f := f) hforced rfl rfl)
  obtain ⟨rfl, hended⟩ := List.append_inj' halone rfl
  obtain rfl : ended = (r.after ks).ended := (List.cons.inj hended).1
  have hline : s.endsLine f (r.turns ks) = !(r.after ks).atLineStart := endsLine_eq rfl ks
  have hlast : s.lastToken (r.turns ks) = (r.after ks).current.token := by
    rw [lastToken, Reading.current_after]
    rfl
  have hpos : (r.after ks).pos = f.pos.past f.unread := by
    rw [Reading.pos_after, flatMap_chunks]
    rfl
  cases hstart : (r.after ks).atLineStart with
  | true =>
    rw [hstart] at hline
    rw [resumed, if_pos hstart, ← hlast]
    exact (h.onward hline n).1
  | false =>
    rw [hstart] at hline
    rw [resumed, if_neg (ne_true_of_eq_false hstart), hpos]
    exact (h.line hline n).1

/-- What a call has passed over already does not show in the bare turn. -/
theorem map_bare_led (lead lead' : Bool) (reported : List Message) (calls : List Turn) :
    (calls.modifyHead (.led lead reported)).map Turn.bare =
      (calls.modifyHead (.led lead' reported)).map Turn.bare := by
  cases calls <;> rfl

/-- A call that has neither passed anything over nor reported anything adds nothing. -/
theorem modifyHead_led (calls : List Turn) : calls.modifyHead (.led false []) = calls := by
  cases calls <;> rfl

/-- A line feed at the end of the file makes no difference to the calls from there on. -/
theorem resumed_lineFeed (s : Scanner) (r : Reading) (n : Nat) :
    ((r.turn? lineFeedChunk).toList ++ s.resumed (r.next lineFeedChunk) n).map Turn.bare =
      (s.resumed r ((r.turn? lineFeedChunk).toList.length + n)).map Turn.bare := by
  have hturn := r.turn?_lineFeed
  cases hstart : r.atLineStart with
  | true =>
    -- The line feed is passed over, and the end of the file is too.
    rw [hstart, if_pos rfl] at hturn
    have hreported : (r.next lineFeedChunk).reported = r.reported := by
      rw [Reading.next_of_none hturn]
      exact List.append_nil _
    have hcurrent : (r.next lineFeedChunk).current = r.current := by
      rw [Reading.next_of_none hturn]
    have hempty : (r.next lineFeedChunk).atLineStart = true := by
      rw [Reading.atLineStart, hcurrent]
      exact hstart
    rw [hturn, Option.toList_none, List.nil_append, List.length_nil, Nat.zero_add, resumed, resumed,
      if_pos hempty, if_pos hstart, hcurrent, hreported]
    exact map_bare_led _ _ _ _
  | false =>
    -- The line feed is the separator, so that the end of the file finds the line empty.
    rw [hstart, if_neg Bool.false_ne_true] at hturn
    have hnext := Reading.next_of_some hturn
    have hempty : (r.next lineFeedChunk).atLineStart = true := by
      rw [hnext]
      rfl
    rw [hturn, Option.toList_some, List.singleton_append, List.length_singleton, Nat.add_comm 1, resumed,
      resumed, if_pos hempty, if_neg (ne_true_of_eq_false hstart), hnext, modifyHead_led]

/-- **An included file ends its last line even without a line feed.** Entered with a line feed at its
end and without, it is scanned with the same tokens, attributes and positions, and the same messages,
call by call and for any number of calls. -/
theorem calls_lastLine {files files' : FileSystem} {path : String} {text : List UInt8}
    (hfile : files path = .ok ⟨text, none⟩)
    (hfile' : files' path = .ok ⟨text ++ [Byte.lineFeed], none⟩) {s : Scanner}
    (hc : s.config.features.lineCont = false) (hforced : s.forcedEnd = false)
    (hdepth : 1 ≤ s.depth ∧ s.depth ≤ 253) :
    let unended := s.perform files (.enterFile path)
    let ended := s.perform files' (.enterFile path)
    unended.1 = .done ∧ ended.1 = .done ∧
      ∀ n, (unended.2.calls n).map Turn.bare = (ended.2.calls n).map Turn.bare := by
  have hs : s.input.frames ≠ [] := List.ne_nil_of_length_pos hdepth.1
  rw [perform_enters (.file hfile) hdepth.2, perform_enters (.file hfile') hdepth.2]
  refine ⟨rfl, rfl, fun n => ?_⟩
  let r := s.beginning path
  let ks := chunks s.config s.charmap text
  let more := ((r.after ks).turn? lineFeedChunk).toList
  let unended := s.withFrame (.ofFile path ⟨text, none⟩)
  let ended := s.withFrame (.ofFile path ⟨text ++ [Byte.lineFeed], none⟩)
  have hchunks : chunks s.config s.charmap (text ++ [Byte.lineFeed]) = ks ++ [lineFeedChunk] := by
    rw [chunks_append _ hc fun _ hb => (Option.mem_some.1 hb).symm, chunks_lineFeed, chunks_nil]
  have hturns : r.turns (ks ++ [lineFeedChunk]) = r.turns ks ++ more := by
    rw [Reading.turns_append, Reading.turns, Reading.turns, List.append_nil]
  have hunended : unended.calls ((r.turns ks).length + (more.length + n + 1)) =
      r.turns ks ++ s.resumed (r.after ks) (more.length + n) :=
    calls_withFile hforced hs path rfl (more.length + n)
  have hended : ended.calls ((r.turns ks ++ more).length + (n + 1)) =
      r.turns ks ++ more ++ s.resumed ((r.after ks).next lineFeedChunk) n := by
    have h := calls_withFile hforced hs path hchunks n
    rwa [hturns, Reading.after_append] at h
  -- Both files are read past their ends, and n calls further.
  have hcalls : (unended.calls (n + ((r.turns ks).length + more.length + 1))).map Turn.bare =
      (ended.calls (n + ((r.turns ks).length + more.length + 1))).map Turn.bare := by
    have hcount : n + ((r.turns ks).length + more.length + 1) =
        (r.turns ks).length + (more.length + n + 1) := by omega
    have hcount' : n + ((r.turns ks).length + more.length + 1) =
        (r.turns ks ++ more).length + (n + 1) := by
      rw [List.length_append]
      omega
    rw [congrArg ended.calls hcount', hcount, hunended, hended, List.append_assoc, List.map_append,
      List.map_append, resumed_lineFeed]
  rw [← take_calls _ n _, ← ended.take_calls n _, List.map_take, hcalls, List.map_take]

/-- A file that ends within a literal, entered after a register. -/
theorem calls_lastLine_cut :
    let s : Scanner := {ofBytes {} "outer" [0x0A] with current := ⟨.registerX, .none, false, .nowhere⟩}
    let text : List UInt8 := [Byte.doubleQuote, Byte.lowerA]
    let files : FileSystem := fun _ => .ok ⟨text, none⟩
    let files' : FileSystem := fun _ => .ok ⟨text ++ [Byte.lineFeed], none⟩
    s.config.features.lineCont = false ∧ s.forcedEnd = false ∧ (1 ≤ s.depth ∧ s.depth ≤ 253) ∧
      (s.perform files (.enterFile "inner")).1 = .done ∧
      (s.perform files' (.enterFile "inner")).1 = .done ∧
      ∀ n, ((s.perform files (.enterFile "inner")).2.calls n).map Turn.bare =
        ((s.perform files' (.enterFile "inner")).2.calls n).map Turn.bare :=
  ⟨rfl, rfl, by decide, calls_lastLine rfl rfl rfl rfl (by decide)⟩

end AsmScan.Scanner
