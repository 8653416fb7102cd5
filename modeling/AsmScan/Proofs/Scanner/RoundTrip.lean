import AsmScan.Proofs.Lexeme.Spelling
import AsmScan.Proofs.Scanner.Frame

/-! What is written is read back.

Items are written one after the other with a single space between. Each of them and
each space is one chunk of the text (`chunks_lexes`, `chunks_space`), so that a scan
of the text returns the items in order (`turns_written`). -/
namespace AsmScan
open Scanner (Turn)

/-- An item and a text that says it. -/
structure Written (c : Config) where
  item : Item
  text : List UInt8
  spelling : item.Spelling c text

namespace Written
variable {c : Config}

/-- The texts with single spaces between. -/
def join (items : List (Written c)) : List UInt8 := [Byte.space].intercalate (items.map text)

/-- The calls that return the items, the first of which stands at a position. Each but the first
comes after a space. -/
def turns (m : Charmap) (pos : Position) (spaced : Bool) : List (Written c) → List Turn
  | [] => []
  | w :: more =>
    ⟨[], ⟨w.item.token c, w.item.attr c m, spaced, pos⟩⟩ ::
      turns m (pos.past (w.text ++ [Byte.space])) true more

theorem join_cons (w : Written c) {more : List (Written c)} (h : more ≠ []) :
    join (w :: more) = w.text ++ Byte.space :: join more := by
  rw [join, List.map_cons, List.intercalate_cons_of_ne_nil (by simpa using h), List.append_assoc]
  rfl

end Written

/-! ### Chunks -/

section Chunks
variable {c : Config} {m : Charmap}

/-- The chunk of a space. -/
def spaceChunk : Chunk := ⟨[Byte.space], .blank 1⟩

theorem chunks_space (rest : List UInt8) :
    chunks c m (Byte.space :: rest) = spaceChunk :: chunks c m rest := by
  have hread : Lexeme.read c m Byte.space rest = .blank 1 :=
    if_neg (Lexeme.ne_mark c (by decide))
  rw [chunks_cons, hread]
  rfl

/-- A text that is one token is one chunk. -/
theorem chunks_lexes {text : List UInt8} {t : Token} {attr : Attr}
    (h : Lexeme.Lexes c m text t attr) {tail : List UInt8} (htail : Apart tail) :
    ∃ l : Lexeme, l.meaning = .token t attr ∧ l.findings = [] ∧
      chunks c m (text ++ tail) = ⟨text, l⟩ :: chunks c m tail := by
  obtain ⟨first, rest, rfl, hread⟩ := h
  obtain ⟨hmeaning, hsize, hfindings⟩ := hread tail htail
  exact ⟨_, hmeaning, hfindings, chunks_of_read c m rfl hsize⟩

end Chunks

/-! ### Reading -/

namespace Reading
variable {c : Config}

/-- A token without a problem ends the call. -/
theorem turn?_token (r : Reading) (text : List UInt8) {l : Lexeme} {t : Token} {attr : Attr}
    (hmeaning : l.meaning = .token t attr) (hfindings : l.findings = []) :
    r.turn? ⟨text, l⟩ = some ⟨r.reported, ⟨t, attr, r.spaced, r.pos⟩⟩ := by
  have hmessages : l.messages r.pos = [] := by
    rw [Lexeme.messages, hfindings]
    rfl
  simp only [turn?, token?, hmeaning, hmessages, List.append_nil, Option.map_some]

/-- A space ends no call, and sets off the next token. -/
theorem next_space (r : Reading) :
    r.turn? spaceChunk = none ∧
      r.next spaceChunk = ⟨r.current, true, r.reported, r.pos.past [Byte.space]⟩ :=
  r.next_blank rfl rfl

/-- Items are returned one by one, and then the text ends. -/
theorem turns_join (hc : c.features.stringEscapes = true) (m : Charmap) (w : Written c)
    (more : List (Written c)) (found : Occurrence) (spaced : Bool) (pos : Position) :
    let r : Reading := ⟨found, spaced, [], pos⟩
    let ks := chunks c m (Written.join (w :: more))
    r.turns ks ++ [(r.after ks).ended] =
      Written.turns m pos spaced (w :: more) ++
        [⟨[], ⟨.eof, .none, false, pos.past (Written.join (w :: more))⟩⟩] := by
  intro r ks
  have hlexes (w : Written c) := w.item.lexes hc m w.spelling
  -- The list is never empty: behind the last item no space is left for the end to follow.
  induction more generalizing w found spaced pos with
  | nil =>
    obtain ⟨l, hmeaning, hfindings, hchunks⟩ := chunks_lexes (hlexes w) apart_nil
    have hjoin : Written.join [w] = w.text := List.intercalate_singleton
    have hks : ks = [⟨w.text, l⟩] := by
      rw [List.append_nil, chunks_nil] at hchunks
      rw [← hchunks, ← hjoin]
    have hturn := r.turn?_token w.text hmeaning hfindings
    rw [hks, turns_of_some hturn, hjoin]
    show _ :: [] ++ [(r.next ⟨w.text, l⟩).ended] = _
    rw [next_of_some hturn]
    rfl
  | cons w' more ih =>
    have happart : Apart (Byte.space :: Written.join (w' :: more)) := apart_cons rfl
    obtain ⟨l, hmeaning, hfindings, hchunks⟩ := chunks_lexes (hlexes w) happart
    have hjoin := w.join_cons (List.cons_ne_nil w' more)
    have hks : ks = ⟨w.text, l⟩ :: spaceChunk :: chunks c m (Written.join (w' :: more)) := by
      rw [← chunks_space, ← hchunks, ← hjoin]
    have hturn := r.turn?_token w.text hmeaning hfindings
    obtain ⟨hnone, hnext⟩ := (r.next ⟨w.text, l⟩).next_space
    have hafter : r.after ks =
        ((r.next ⟨w.text, l⟩).next spaceChunk).after (chunks c m (Written.join (w' :: more))) := by
      rw [hks]
      rfl
    have hend : pos.past (Written.join (w :: w' :: more)) =
        (pos.past (w.text ++ [Byte.space])).past (Written.join (w' :: more)) := by
      rw [hjoin, ← Position.past_append, List.append_assoc, List.singleton_append]
    rw [hafter, hks, turns_of_some hturn, turns_of_none hnone, hnext, next_of_some hturn, hend]
    have := ih w' ⟨w.item.token c, w.item.attr c m, spaced, pos⟩ true (pos.past (w.text ++ [Byte.space]))
    rw [Written.turns, List.cons_append, List.cons_append, ← this, Position.past_append]

end Reading

namespace Scanner

/-- **Whatever is written is read back.** The texts of items, joined by single spaces, are scanned as
the items in order, each with its token and what it carries, and nothing is reported. -/
theorem turns_written {c : Config} (hc : c.features.stringEscapes = true) (m : Charmap)
    (name : String) (items : List (Written c)) :
    (ofText c m name .start (Written.join items)).turns.1 =
      Written.turns m ⟨name, .start⟩ false items ++
        [⟨[], ⟨.eof, .none, false, ⟨name, Location.start.past (Written.join items)⟩⟩⟩] := by
  rw [turns_ofText]
  cases items with
  | nil =>
    have hjoin : Written.join ([] : List (Written c)) = [] := List.intercalate_nil
    rw [hjoin, chunks_nil]
    rfl
  | cons w more => exact Reading.turns_join hc m w more _ false ⟨name, .start⟩

/-- A directive in small letters and a number. -/
theorem turns_written_byte :
    let c : Config := {}
    let items : List (Written c) :=
      [⟨.fixed (.directive .BYTE) rfl, utf8 ".byte", rfl⟩, ⟨.number .hexadecimal 42, utf8 "$2A", rfl⟩]
    c.features.stringEscapes = true ∧ Written.join items = utf8 ".byte $2A" ∧
      (ofText c default "t.s" .start (Written.join items)).turns.1 =
        [⟨[], ⟨.directive .BYTE, .none, false, ⟨"t.s", ⟨1, 1⟩⟩⟩⟩,
         ⟨[], ⟨.intConst, .int 42, true, ⟨"t.s", ⟨1, 7⟩⟩⟩⟩,
         ⟨[], ⟨.eof, .none, false, ⟨"t.s", ⟨1, 10⟩⟩⟩⟩] := by
  intro c items
  exact ⟨rfl, rfl, turns_written (c := c) rfl default "t.s" items⟩

end Scanner
end AsmScan
