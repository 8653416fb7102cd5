import AsmScan.Proofs.Lexeme.Apart
import AsmScan.Proofs.Lexeme.Gap
import AsmScan.Proofs.Scanner.Frame

/-! The line theorem.

Where lines cannot be joined, each is scanned as if it stood alone: what is wrong on
one line, a literal without a closing quote for instance, changes nothing on another.
`turns_lines` says what the tokens of a text are, given those of its lines. They come
line by line, and behind each line that has any and is not the last stands one
separator. The messages come line by line too. Everything stands at its line, in the
column that it has in the line alone. -/
namespace AsmScan
open Scanner (Turn)

/-! ### Chunks of lines -/

section Chunks
variable {c : Config} (m : Charmap)

/-- Before a line feed a text has the same chunks as at its end. -/
theorem chunks_append (hc : c.features.lineCont = false) {tail : List UInt8} (htail : NewLine tail)
    (text : List UInt8) :
    chunks c m (text ++ tail) = chunks c m text ++ chunks c m tail :=
  chunks_append_of fun first rest _ => Lexeme.read_append hc m first rest htail

/-- The end of a line. -/
def lineFeedChunk : Chunk := ⟨[Byte.lineFeed], {meaning := .lineEnd, size := 1}⟩

theorem chunks_lineFeed (c : Config) (rest : List UInt8) :
    chunks c m (Byte.lineFeed :: rest) = lineFeedChunk :: chunks c m rest := by
  have hread : Lexeme.read c m Byte.lineFeed rest = {meaning := .lineEnd, size := 1} :=
    if_neg (Lexeme.ne_mark c (by decide))
  rw [chunks_cons, hread]
  rfl

/-- A text without a line feed has no end of a line. -/
theorem not_lineEnd_of_mem_chunks {text : List UInt8} (htext : Byte.lineFeed ∉ text) {k : Chunk}
    (hk : k ∈ chunks c m text) : k.lexeme.meaning ≠ .lineEnd := by
  intro hl
  obtain ⟨first, hfirst, rest, hread⟩ := exists_read_of_mem_chunks c m hk
  rw [hread] at hl
  rw [Lexeme.eq_lineFeed_of_lineEnd hl] at hfirst
  exact htext hfirst

end Chunks

/-! ### What stands on a line -/

/-- The position in the same column of another line. -/
def Position.onLine (line : Nat) (p : Position) : Position := {p with loc := {p.loc with line}}

def Message.onLine (line : Nat) (m : Message) : Message := {m with pos := m.pos.onLine line}

def Occurrence.onLine (line : Nat) (o : Occurrence) : Occurrence := {o with pos := o.pos.onLine line}

/-- The occurrence without regard to what was passed over before it. -/
def Occurrence.bare (o : Occurrence) : Occurrence := {o with spaced := false}

/-- A text without a line feed ends on the line on which it begins. -/
theorem Position.past_eq (p : Position) {bytes : List UInt8} (h : Byte.lineFeed ∉ bytes) :
    p.past bytes = {p with loc := p.loc.right bytes.length} := by
  rw [past, Location.past_eq, List.count_eq_zero_of_not_mem h, if_neg h]
  rfl

theorem Position.past_onLine (line : Nat) (p : Position) {bytes : List UInt8}
    (h : Byte.lineFeed ∉ bytes) : (p.onLine line).past bytes = (p.past bytes).onLine line := by
  rw [past_eq _ h, past_eq _ h]
  rfl

namespace Chunk

/-- The token that a chunk is, unless it is the end of a line. -/
def token? (pos : Position) (k : Chunk) : Option Occurrence :=
  match k.lexeme.meaning with
  | .token t attr => some ⟨t, attr, false, pos⟩
  | _ => none

/-- The tokens of some chunks, the first of which stands at a position. -/
def tokens (pos : Position) : List Chunk → List Occurrence
  | [] => []
  | k :: ks => (k.token? pos).toList ++ tokens (pos.past k.bytes) ks

section OnLine
variable {line : Nat} {ks : List Chunk} (hks : ∀ k ∈ ks, Byte.lineFeed ∉ k.bytes) (pos : Position)
include hks

theorem tokens_onLine : tokens (pos.onLine line) ks = (tokens pos ks).map (·.onLine line) := by
  induction ks generalizing pos with
  | nil => rfl
  | cons k ks ih =>
    have htoken : (k.token? (pos.onLine line)).toList =
        (k.token? pos).toList.map (·.onLine line) := by
      unfold token?
      split <;> rfl
    rw [tokens, tokens, List.map_append, ← htoken,
      Position.past_onLine _ _ (hks k (List.mem_cons_self ..)),
      ih fun k hk => hks k (List.mem_cons_of_mem _ hk)]

theorem reports_onLine : reports (pos.onLine line) ks = (reports pos ks).map (·.onLine line) := by
  induction ks generalizing pos with
  | nil => rfl
  | cons k ks ih =>
    have hmessages : k.lexeme.messages (pos.onLine line) =
        (k.lexeme.messages pos).map (·.onLine line) := by
      simp only [Lexeme.messages, List.map_map]
      rfl
    rw [reports, reports, List.map_append, ← hmessages,
      Position.past_onLine _ _ (hks k (List.mem_cons_self ..)),
      ih fun k hk => hks k (List.mem_cons_of_mem _ hk)]

end OnLine

/-- The tokens of a text's chunks stand for no end. -/
theorem isEnd_of_mem_tokens {c : Config} {m : Charmap} {text : List UInt8} {ks : List Chunk}
    (hks : ks ⊆ chunks c m text) {pos : Position} {o : Occurrence} (ho : o ∈ tokens pos ks) :
    Lexeme.isEnd o.token = false := by
  induction ks generalizing pos with
  | nil => contradiction
  | cons k ks ih =>
    obtain ⟨hk, hks⟩ := List.cons_subset.1 hks
    rcases List.mem_append.1 ho with ho | ho
    · obtain ⟨first, -, rest, hread⟩ := exists_read_of_mem_chunks c m hk
      have hordinary := Lexeme.ordinary_read c m first rest
      rw [← hread] at hordinary
      rw [Option.mem_toList, token?] at ho
      split at ho
      next t attr hm =>
        cases ho
        exact hordinary t attr hm
      · contradiction
    · exact ih hks ho

end Chunk

/-! ### Reading a line -/

namespace Reading

/-- What the calls report and what is left to report is what the chunks report. -/
theorem flatMap_reported (r : Reading) (ks : List Chunk) :
    (r.turns ks).flatMap Turn.reported ++ (r.after ks).reported =
      r.reported ++ Chunk.reports r.pos ks := by
  induction ks generalizing r with
  | nil => exact (List.append_nil _).symm
  | cons k ks ih =>
    have hnext := ih (r.next k)
    rw [pos_next] at hnext
    cases ht : r.turn? k with
    | none =>
      show (r.turns (k :: ks)).flatMap Turn.reported ++ ((r.next k).after ks).reported = _
      rw [turns_of_none ht, hnext, next_of_none ht, Chunk.reports, List.append_assoc]
    | some t =>
      obtain ⟨token, attr, -, rfl⟩ := turn_of_some ht
      show (r.turns (k :: ks)).flatMap Turn.reported ++ ((r.next k).after ks).reported = _
      rw [turns_of_some ht, List.flatMap_cons, List.append_assoc, hnext, next_of_some ht,
        Chunk.reports, List.nil_append, List.append_assoc]

/-- Off the ends of lines, what is found does not depend on what was found before. -/
theorem turn?_eq_token? {r : Reading} {k : Chunk} (hk : k.lexeme.meaning ≠ .lineEnd) :
    (r.turn? k).map (·.found.bare) = k.token? r.pos := by
  unfold turn? token? Chunk.token?
  split <;> simp_all [Occurrence.bare]

theorem map_found_turns (r : Reading) {ks : List Chunk}
    (hks : ∀ k ∈ ks, k.lexeme.meaning ≠ .lineEnd) :
    (r.turns ks).map (·.found.bare) = Chunk.tokens r.pos ks := by
  induction ks generalizing r with
  | nil => rfl
  | cons k ks ih =>
    rw [turns, List.map_append, ih _ fun k hk => hks k (List.mem_cons_of_mem _ hk), pos_next,
      Chunk.tokens, ← turn?_eq_token? (hks k (List.mem_cons_self ..))]
    cases r.turn? k <;> rfl

/-- A line is empty so far as long as nothing was found on it. -/
theorem atLineStart_after {c : Config} {m : Charmap} {text : List UInt8}
    (htext : Byte.lineFeed ∉ text) {r : Reading} (hr : r.atLineStart = true) :
    (r.after (chunks c m text)).atLineStart = (Chunk.tokens r.pos (chunks c m text)).isEmpty := by
  have hmap := r.map_found_turns fun k (hk : k ∈ chunks c m text) =>
    not_lineEnd_of_mem_chunks m htext hk
  rw [← hmap, atLineStart, current_after, List.isEmpty_map]
  cases hlast : (r.turns (chunks c m text)).getLast? with
  | none =>
    rw [List.getLast?_eq_none_iff.1 hlast]
    exact hr
  | some t =>
    have ht : t ∈ r.turns (chunks c m text) := List.mem_of_getLast? hlast
    have hbare : t.found.bare ∈ Chunk.tokens r.pos (chunks c m text) := by
      rw [← hmap]
      exact List.mem_map_of_mem ht
    have hend : Lexeme.isEnd t.found.bare.token = false :=
      Chunk.isEnd_of_mem_tokens (fun k hk => hk) hbare
    have hend : Lexeme.isEnd t.found.token = false := hend
    have hnil : (r.turns (chunks c m text)).isEmpty = false := by
      rw [List.isEmpty_eq_false_iff]
      exact List.ne_nil_of_mem ht
    rw [hnil]
    show (decide (t.found.token = .initial) || decide (t.found.token = .separator)) = false
    cases htoken : t.found.token <;> simp_all [Lexeme.isEnd]

/-- The end of a line is a separator unless the line is empty. -/
theorem turn?_lineFeed (r : Reading) :
    r.turn? lineFeedChunk =
      if r.atLineStart then none
      else some ⟨r.reported, ⟨.separator, .none, r.spaced, r.pos⟩⟩ := by
  have hmessages : lineFeedChunk.lexeme.messages r.pos = [] := rfl
  unfold turn? token?
  rw [hmessages, List.append_nil]
  cases r.atLineStart <;> rfl

/-- Behind the end of a line the next one is empty so far. -/
theorem turns_lineFeed (r : Reading) (ks : List Chunk) :
    (r.turns (lineFeedChunk :: ks)).map (·.found.bare) =
        (if r.atLineStart then [] else [⟨.separator, .none, false, r.pos⟩]) ++
          ((r.next lineFeedChunk).turns ks).map (·.found.bare) ∧
      (r.next lineFeedChunk).atLineStart = true := by
  have hturn := r.turn?_lineFeed
  cases hr : r.atLineStart with
  | true =>
    rw [hr, if_pos rfl] at hturn
    rw [turns_of_none hturn, next_of_none hturn, if_pos rfl]
    exact ⟨rfl, hr⟩
  | false =>
    rw [hr, if_neg Bool.false_ne_true] at hturn
    rw [turns_of_some hturn, next_of_some hturn, if_neg Bool.false_ne_true]
    exact ⟨rfl, rfl⟩

end Reading

/-! ### Lines one below the other -/

/-- The tokens of lines one below the other, the first of which has a number: those of each line,
and a separator behind each line that has any and is not the last. -/
def joinTokens (name : String) (tokens : List UInt8 → List Occurrence) :
    Nat → List (List UInt8) → List Occurrence
  | _, [] => []
  | line, [p] => (tokens p).map (·.onLine line)
  | line, p :: more =>
    (tokens p).map (·.onLine line) ++
      (if (tokens p).isEmpty then []
        else [⟨.separator, .none, false, ⟨name, ⟨line, 1 + p.length⟩⟩⟩]) ++
      joinTokens name tokens (line + 1) more

/-- The messages of lines one below the other. -/
def joinMessages (messages : List UInt8 → List Message) : Nat → List (List UInt8) → List Message
  | _, [] => []
  | line, p :: more => (messages p).map (·.onLine line) ++ joinMessages messages (line + 1) more

section Lines
variable {c : Config} (hc : c.features.lineCont = false) (m : Charmap) (name : String)
include hc

/-- A first line and its end have chunks of their own. -/
theorem chunks_line (p : List UInt8) {more : List (List UInt8)} (hmore : more ≠ []) :
    chunks c m ([Byte.lineFeed].intercalate (p :: more)) =
      chunks c m p ++ lineFeedChunk :: chunks c m ([Byte.lineFeed].intercalate more) := by
  have hfeed : NewLine (Byte.lineFeed :: [Byte.lineFeed].intercalate more) := by
    intro b hb
    cases hb
    rfl
  rw [List.intercalate_cons_of_ne_nil hmore, List.append_assoc, List.singleton_append,
    chunks_append m hc hfeed, chunks_lineFeed]

omit hc in
/-- Where the next line begins. -/
theorem past_line (line : Nat) {p : List UInt8} (hp : Byte.lineFeed ∉ p) :
    Position.past ⟨name, ⟨line, 1⟩⟩ p = ⟨name, ⟨line, 1 + p.length⟩⟩ ∧
      Position.past ⟨name, ⟨line, 1 + p.length⟩⟩ [Byte.lineFeed] = ⟨name, ⟨line + 1, 1⟩⟩ :=
  ⟨Position.past_eq _ hp, rfl⟩

/-- The messages come line by line. -/
theorem reports_lines {messages : List UInt8 → List Message} {lines : List (List UInt8)}
    (hlines : ∀ p ∈ lines, Byte.lineFeed ∉ p ∧
      messages p = Chunk.reports ⟨name, .start⟩ (chunks c m p)) (line : Nat) :
    Chunk.reports ⟨name, ⟨line, 1⟩⟩ (chunks c m ([Byte.lineFeed].intercalate lines)) =
      joinMessages messages line lines := by
  induction lines generalizing line with
  | nil => rw [List.intercalate_nil, chunks_nil]; rfl
  | cons p more ih =>
    obtain ⟨hp, hmessages⟩ := hlines p (List.mem_cons_self ..)
    have hks : ∀ k ∈ chunks c m p, Byte.lineFeed ∉ k.bytes := fun k hk hb =>
      hp (mem_of_mem_chunks c m hk hb)
    have hone : Chunk.reports ⟨name, ⟨line, 1⟩⟩ (chunks c m p) =
        (messages p).map (·.onLine line) := by
      rw [hmessages]
      exact Chunk.reports_onLine hks ⟨name, .start⟩
    by_cases hmore : more = []
    · subst hmore
      rw [List.intercalate_singleton, hone, joinMessages, joinMessages, List.append_nil]
    · rw [chunks_line hc m p hmore, Chunk.reports_append, hone, flatMap_chunks, joinMessages,
        (past_line name line hp).1, ← ih fun q hq => hlines q (List.mem_cons_of_mem p hq)]
      rfl

/-- The tokens come line by line, with separators between. -/
theorem tokens_lines {tokens : List UInt8 → List Occurrence} {lines : List (List UInt8)}
    (hlines : ∀ p ∈ lines, Byte.lineFeed ∉ p ∧
      tokens p = Chunk.tokens ⟨name, .start⟩ (chunks c m p)) (line : Nat)
    {r : Reading} (hr : r.atLineStart = true) (hpos : r.pos = ⟨name, ⟨line, 1⟩⟩) :
    (r.turns (chunks c m ([Byte.lineFeed].intercalate lines))).map (·.found.bare) =
      joinTokens name tokens line lines := by
  induction lines generalizing line r with
  | nil => rw [List.intercalate_nil, chunks_nil]; rfl
  | cons p more ih =>
    obtain ⟨hp, htokens⟩ := hlines p (List.mem_cons_self ..)
    have hks : ∀ k ∈ chunks c m p, Byte.lineFeed ∉ k.bytes := fun k hk hb =>
      hp (mem_of_mem_chunks c m hk hb)
    have hone : (r.turns (chunks c m p)).map (·.found.bare) = (tokens p).map (·.onLine line) := by
      rw [r.map_found_turns fun k hk => not_lineEnd_of_mem_chunks m hp hk, htokens, hpos]
      exact Chunk.tokens_onLine hks ⟨name, .start⟩
    by_cases hmore : more = []
    · subst hmore
      rw [List.intercalate_singleton, hone, joinTokens]
    · let last := r.after (chunks c m p)
      have hlast : last.pos = ⟨name, ⟨line, 1 + p.length⟩⟩ := by
        rw [Reading.pos_after, flatMap_chunks, hpos, (past_line name line hp).1]
      have hempty : last.atLineStart = (tokens p).isEmpty := by
        rw [Reading.atLineStart_after hp hr, ← r.map_found_turns fun k hk =>
          not_lineEnd_of_mem_chunks m hp hk, hone, List.isEmpty_map]
      obtain ⟨hturns, hstart⟩ := last.turns_lineFeed (chunks c m ([Byte.lineFeed].intercalate more))
      have hnext : (last.next lineFeedChunk).pos = ⟨name, ⟨line + 1, 1⟩⟩ := by
        rw [Reading.pos_next, hlast]
        exact (past_line name line hp).2
      rw [chunks_line hc m p hmore, Reading.turns_append, List.map_append, hone, hturns, hlast, hempty,
        ih (fun q hq => hlines q (List.mem_cons_of_mem p hq)) (line + 1) hstart hnext,
        joinTokens, List.append_assoc]
      exact hmore

end Lines

/-! ### The text as a whole -/

/-- No line has a line feed. -/
theorem not_mem_of_mem_splitOn {text p : List UInt8} (h : p ∈ text.splitOn Byte.lineFeed) :
    Byte.lineFeed ∉ p := by
  induction text generalizing p with
  | nil =>
    rw [List.splitOn_nil, List.mem_singleton] at h
    rw [h]
    exact List.not_mem_nil
  | cons b text ih =>
    rw [List.splitOn_cons_eq_if_modifyHead] at h
    split at h
    · rcases List.mem_cons.1 h with rfl | h
      · exact List.not_mem_nil
      · exact ih h
    next hb =>
      obtain ⟨first, more, hsplit⟩ :=
        List.exists_cons_of_ne_nil (List.splitOn_ne_nil Byte.lineFeed text)
      rw [hsplit, List.modifyHead_cons] at h
      rcases List.mem_cons.1 h with rfl | h
      · have hfirst : Byte.lineFeed ∉ first := ih (by rw [hsplit]; exact List.mem_cons_self ..)
        rw [List.mem_cons, not_or]
        exact ⟨fun heq => hb (by rw [heq, beq_self_eq_true]), hfirst⟩
      · exact ih (by rw [hsplit]; exact List.mem_cons_of_mem _ h)

namespace Scanner

/-- What is found before the end of a text that stands alone, without regard to what was passed
over. -/
def tokensAlone (c : Config) (m : Charmap) (name : String) (text : List UInt8) : List Occurrence :=
  ((ofText c m name .start text).turns.1.map (·.found.bare)).dropLast

/-- What is reported of a text that stands alone. -/
def messagesAlone (c : Config) (m : Charmap) (name : String) (text : List UInt8) : List Message :=
  (ofText c m name .start text).turns.1.flatMap Turn.reported

theorem tokensAlone_eq (c : Config) (m : Charmap) (name : String) {p : List UInt8}
    (hp : Byte.lineFeed ∉ p) :
    tokensAlone c m name p = Chunk.tokens ⟨name, .start⟩ (chunks c m p) := by
  rw [tokensAlone, turns_ofText, List.map_append, List.map_singleton, List.dropLast_concat]
  exact Reading.map_found_turns _ fun k hk => not_lineEnd_of_mem_chunks m hp hk

/-- What a scan of a text reports is what its chunks report. -/
theorem flatMap_reported_ofText (c : Config) (m : Charmap) (name : String) (loc : Location)
    (text : List UInt8) :
    (ofText c m name loc text).turns.1.flatMap Turn.reported =
      Chunk.reports ⟨name, loc⟩ (chunks c m text) := by
  rw [turns_ofText, List.flatMap_append, List.flatMap_singleton]
  exact Reading.flatMap_reported _ _

theorem messagesAlone_eq (c : Config) (m : Charmap) (name : String) (text : List UInt8) :
    messagesAlone c m name text = Chunk.reports ⟨name, .start⟩ (chunks c m text) :=
  flatMap_reported_ofText c m name .start text

/-- **Where lines cannot be joined, each is scanned as if it stood alone.** -/
theorem turns_lines {c : Config} (hc : c.features.lineCont = false) (m : Charmap) (name : String)
    (text : List UInt8) :
    let lines := text.splitOn Byte.lineFeed
    (ofText c m name .start text).turns.1.map (·.found.bare) =
        joinTokens name (tokensAlone c m name) 1 lines ++
          [⟨.eof, .none, false, ⟨name, Location.start.past text⟩⟩] ∧
      messagesAlone c m name text = joinMessages (messagesAlone c m name) 1 lines ∧
      ∀ p ∈ lines, ∀ o ∈ tokensAlone c m name p, o.token ≠ .separator ∧ o.token ≠ .eof := by
  intro lines
  have htext : [Byte.lineFeed].intercalate lines = text := List.intercalate_splitOn Byte.lineFeed
  have hlines : ∀ p ∈ lines, Byte.lineFeed ∉ p := fun p hp => not_mem_of_mem_splitOn hp
  refine ⟨?_, ?_, fun p hp o ho => ?_⟩
  · let r : Reading := ⟨⟨.initial, .none, false, ⟨name, .start⟩⟩, false, [], ⟨name, .start⟩⟩
    have htokens : (r.turns (chunks c m ([Byte.lineFeed].intercalate lines))).map (·.found.bare) =
        joinTokens name (tokensAlone c m name) 1 lines :=
      tokens_lines hc m name (fun p hp => ⟨hlines p hp, tokensAlone_eq c m name (hlines p hp)⟩)
        1 rfl rfl
    have hended : (r.after (chunks c m text)).ended.found.bare =
        ⟨.eof, .none, false, ⟨name, Location.start.past text⟩⟩ := by
      show (⟨.eof, .none, false, (r.after (chunks c m text)).pos⟩ : Occurrence) = _
      rw [Reading.pos_after, flatMap_chunks]
      rfl
    rw [htext] at htokens
    rw [turns_ofText, List.map_append, List.map_singleton, hended, htokens]
  · have hreports := reports_lines hc m name
      (fun p hp => ⟨hlines p hp, messagesAlone_eq c m name p⟩) 1
    rw [htext] at hreports
    rw [messagesAlone_eq]
    exact hreports
  · rw [tokensAlone_eq c m name (hlines p hp)] at ho
    have hend : Lexeme.isEnd o.token = false := Chunk.isEnd_of_mem_tokens (fun k hk => hk) ho
    constructor <;>
    · intro heq
      rw [heq] at hend
      contradiction

/-- A literal that its line cuts off leaves the next line alone. -/
theorem turns_lines_quote :
    let c : Config := {}
    let text : List UInt8 := [Byte.doubleQuote, Byte.lineFeed, Byte.lowerA]
    c.features.lineCont = false ∧
      (ofText c default "t.s" .start text).turns.1.map (·.found.bare) =
        joinTokens "t.s" (tokensAlone c default "t.s") 1 [[Byte.doubleQuote], [Byte.lowerA]] ++
          [⟨.eof, .none, false, ⟨"t.s", ⟨2, 2⟩⟩⟩] ∧
      messagesAlone c default "t.s" text =
        joinMessages (messagesAlone c default "t.s") 1 [[Byte.doubleQuote], [Byte.lowerA]] := by
  intro c text
  have hlines : text.splitOn Byte.lineFeed = [[Byte.doubleQuote], [Byte.lowerA]] :=
    rfl
  obtain ⟨htokens, hmessages, -⟩ := turns_lines (c := c) rfl default "t.s" text
  rw [hlines] at htokens hmessages
  exact ⟨rfl, htokens, hmessages⟩

end Scanner
end AsmScan
