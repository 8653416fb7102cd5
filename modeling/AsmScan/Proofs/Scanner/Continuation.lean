import AsmScan.Proofs.Lexeme.Alone
import AsmScan.Proofs.Scanner.Beside
import AsmScan.Proofs.Scanner.Line
import AsmScan.Proofs.Scanner.RoundTrip

/-! Lines that go on in the next.

Pieces of text without quotes and comments can be joined by spaces on one line, or by
backslashes at the ends of lines, one line for each piece. No lexeme goes on over
either, and either is passed over. So piece by piece both texts have the same chunks
(`Continued.beside`), and they are scanned with the same tokens and messages, which the
second text has on the lines of their pieces (`turns_continued`). -/
namespace AsmScan
open Scanner (Turn)

namespace Continued

/-- A backslash and the end of its line. -/
def joints : List (List UInt8) :=
  [[Byte.backslash, Byte.lineFeed], [Byte.backslash, Byte.carriageReturn, Byte.lineFeed]]

/-- A piece that neither ends nor joins lines, and in which no comment and no literal begins. -/
def Plain (piece : List UInt8) : Prop := ∀ b ∈ piece, b ≠ Byte.lineFeed ∧ b ∉ Lexeme.runners

instance (piece : List UInt8) : Decidable (Plain piece) := List.decidableBAll _ piece

end Continued

/-- Pieces, and a text that has one line for each of them, which goes on in the next unless it is the
last. -/
inductive Continued : List (List UInt8) → List UInt8 → Prop where
  | last (piece : List UInt8) : Continued [piece] piece
  | joined (piece : List UInt8) {joint : List UInt8} {pieces : List (List UInt8)}
      {text : List UInt8} :
      joint ∈ Continued.joints → Continued pieces text →
      Continued (piece :: pieces) (piece ++ (joint ++ text))

/-- A position in the text that joins pieces by spaces, and the position behind the same front of the
same piece where each piece has a line. -/
def Facing (name : String) (pieces : List (List UInt8)) (p p' : Position) : Prop :=
  ∃ before piece after front, pieces = before ++ piece :: after ∧ front <+: piece ∧
    p = Position.past ⟨name, .start⟩ (before.flatMap (· ++ [Byte.space]) ++ front) ∧
    p' = ⟨name, ⟨before.length + 1, 1 + front.length⟩⟩

/-! ### Messages and turns -/

/-- The same message about another place. -/
structure Message.Moved (At : Position → Position → Prop) (msg msg' : Message) : Prop where
  severity : msg.severity = msg'.severity
  kind : msg.kind = msg'.kind
  text : msg.text = msg'.text
  pos : At msg.pos msg'.pos

/-- Two calls that find the same token and report the same problems, in other places. -/
structure Scanner.Turn.Moved (At : Position → Position → Prop) (t t' : Turn) : Prop where
  token : t.found.token = t'.found.token
  attr : t.found.attr = t'.found.attr
  spaced : t.found.spaced = t'.found.spaced
  pos : At t.found.pos t'.found.pos
  reported : List.Forall₂ (Message.Moved At) t.reported t'.reported

/-- Two calls that have come to different places in the same way. -/
structure Reading.Moved (At : Position → Position → Prop) (r r' : Reading) : Prop where
  token : r.current.token = r'.current.token
  spaced : r.spaced = r'.spaced
  reported : List.Forall₂ (Message.Moved At) r.reported r'.reported

/-- Chunks that make no difference to a scan but for their place: a space, and what else is passed
over, or the same chunk twice. -/
inductive Chunk.Moved : Chunk → Chunk → Prop where
  | same {k : Chunk} : k.lexeme.FaultyAtStart → Moved k k
  | joint {k : Chunk} : k.lexeme.meaning = .blank → k.lexeme.findings = [] → Moved spaceChunk k

section Moved
variable {At : Position → Position → Prop}

theorem Lexeme.FaultyAtStart.messages_moved {l : Lexeme} (h : l.FaultyAtStart) {p p' : Position}
    (hat : At p p') : List.Forall₂ (Message.Moved At) (l.messages p) (l.messages p') := by
  unfold Lexeme.messages
  rw [List.forall₂_map_left_iff, List.forall₂_map_right_iff, List.forall₂_same]
  intro f hf
  have hpos (q : Position) : (f.message q).pos = q := by
    simp only [Finding.message, h f hf]
    rfl
  refine ⟨rfl, rfl, rfl, ?_⟩
  rw [hpos, hpos]
  exact hat

theorem Reading.Moved.reported_append {r r' : Reading} (h : r.Moved At r') {k : Chunk}
    (hk : k.lexeme.FaultyAtStart) (hat : At r.pos r'.pos) :
    List.Forall₂ (Message.Moved At) (r.reported ++ k.lexeme.messages r.pos)
      (r'.reported ++ k.lexeme.messages r'.pos) :=
  List.rel_append h.reported (hk.messages_moved hat)

/-- Moved readings stay moved. -/
theorem simulation_moved :
    Simulation At Chunk.Moved (Reading.Moved At) (Turn.Moved At) where
  turn? := by
    intro r r' k k' hr hat hk
    cases hk with
    | same hfaulty =>
      have hreported := hr.reported_append hfaulty hat
      unfold Reading.turn?
      rw [Reading.token?_congr hr.token]
      cases r'.token? k with
      | none => exact .none
      | some => exact .some ⟨rfl, rfl, hr.spaced, hat, hreported⟩
    | joint hmeaning hfindings =>
      rw [(r.next_space).1, (r'.next_blank hmeaning hfindings).1]
      exact .none
  next := by
    intro r r' k k' hr hat hk
    cases hk with
    | same hfaulty =>
      have hreported := hr.reported_append hfaulty hat
      unfold Reading.next Reading.turn?
      rw [Reading.token?_congr hr.token]
      cases r'.token? k with
      | none => exact ⟨hr.token, by simp only [Option.map_none, hr.spaced], hreported⟩
      | some => exact ⟨rfl, rfl, .nil⟩
    | joint hmeaning hfindings =>
      rw [(r.next_space).2, (r'.next_blank hmeaning hfindings).2]
      exact ⟨hr.token, rfl, hr.reported⟩
  ended := fun hr hat => ⟨rfl, rfl, hr.spaced, hat, hr.reported⟩

end Moved

/-! ### Chunks -/

/-- What is neither a separator nor in a piece is not in the pieces joined. -/
theorem not_mem_intercalate {α : Type} {sep a : α} (hsep : a ≠ sep) {pieces : List (List α)}
    (h : ∀ p ∈ pieces, a ∉ p) : a ∉ [sep].intercalate pieces := by
  induction pieces with
  | nil => rw [List.intercalate_nil]; exact List.not_mem_nil
  | cons p more ih =>
    obtain ⟨hp, hmore⟩ := List.forall_mem_cons.1 h
    by_cases hnil : more = []
    · rwa [hnil, List.intercalate_singleton]
    · rw [List.intercalate_cons_of_ne_nil hnil, List.mem_append, List.mem_append,
        List.mem_singleton]
      rintro ((hmem | hmem) | hmem)
      · exact hp hmem
      · exact hsep hmem
      · exact ih hmore hmem

namespace Continued

theorem Plain.lineFeed {piece : List UInt8} (h : Plain piece) : Byte.lineFeed ∉ piece :=
  fun hmem => (h _ hmem).1 rfl

section Chunks
variable {c : Config} (m : Charmap)

/-- A plain piece has chunks of its own before whatever goes on nothing. -/
theorem chunks_piece {piece tail : List UInt8} (hpiece : Plain piece) (htail : Stopped tail) :
    chunks c m (piece ++ tail) = chunks c m piece ++ chunks c m tail := by
  apply chunks_append_of
  intro first rest hsuffix
  have hfirst : first ∈ piece := hsuffix.subset (List.mem_cons_self ..)
  exact Lexeme.read_append_stopped c m (hpiece first hfirst).2 rest htail

theorem stopped_joint {joint : List UInt8} (h : joint ∈ joints) (rest : List UInt8) :
    Stopped (joint ++ rest) := by
  simp only [joints, List.mem_cons, List.not_mem_nil, or_false] at h
  rcases h with rfl | rfl <;> exact stopped_cons rfl _

/-- A joint is a chunk, which is passed over. -/
theorem exists_chunks_joint (hc : c.features.lineCont = true) {joint : List UInt8}
    (h : joint ∈ joints) (rest : List UInt8) :
    ∃ l : Lexeme, l.meaning = .blank ∧ l.findings = [] ∧
      chunks c m (joint ++ rest) = ⟨joint, l⟩ :: chunks c m rest := by
  have hread (more : List UInt8) : Lexeme.read c m Byte.backslash more = Lexeme.joint more := by
    rw [Lexeme.read_of_rule (.joint rfl hc)]
  simp only [joints, List.mem_cons, List.not_mem_nil, or_false] at h
  rcases h with rfl | rfl
  · exact ⟨.blank 2, rfl, rfl, chunks_of_read c m (hread _) rfl⟩
  · exact ⟨.blank 3, rfl, rfl, chunks_of_read c m (hread _) rfl⟩

/-- Behind a joint the next line begins. -/
theorem past_joint {joint : List UInt8} (h : joint ∈ joints) (p : Position) :
    p.past joint = {p with loc := ⟨p.loc.line + 1, 1⟩} := by
  simp only [joints, List.mem_cons, List.not_mem_nil, or_false] at h
  rcases h with rfl | rfl <;> rfl

variable (name : String) {all before : List (List UInt8)}

theorem facing_piece {piece front : List UInt8} {after : List (List UInt8)}
    (hall : all = before ++ piece :: after) (hpiece : Plain piece) (hfront : front <+: piece) :
    Facing name all
      ((Position.past ⟨name, .start⟩ (before.flatMap (· ++ [Byte.space]))).past front)
      (Position.past ⟨name, ⟨before.length + 1, 1⟩⟩ front) := by
  refine ⟨before, piece, after, front, hall, hfront, (Position.past_append _ _ _).symm, ?_⟩
  exact Position.past_eq _ fun hmem => hpiece.lineFeed (hfront.subset hmem)

/-- The chunks of a piece face each other. -/
theorem beside_piece {piece : List UInt8} {after : List (List UInt8)}
    (hall : all = before ++ piece :: after) (hpiece : Plain piece) :
    Beside (Facing name all) Chunk.Moved
      (Position.past ⟨name, .start⟩ (before.flatMap (· ++ [Byte.space]))) (chunks c m piece)
      ⟨name, ⟨before.length + 1, 1⟩⟩ (chunks c m piece) := by
  apply Beside.same
  · intro k hk
    obtain ⟨first, hfirst, rest, hread⟩ := exists_read_of_mem_chunks c m hk
    have hquote : first ≠ Byte.doubleQuote ∧ first ≠ Byte.singleQuote := by
      have := (hpiece first hfirst).2
      constructor <;> rintro rfl <;> exact this (by decide)
    exact .same (hread ▸ Lexeme.faultyAtStart_unquoted hquote)
  · intro front hfront
    rw [flatMap_chunks] at hfront
    exact facing_piece name hall hpiece hfront

/-- **Pieces joined by spaces face the same pieces on lines that are joined.** -/
theorem beside (hc : c.features.lineCont = true) {pieces : List (List UInt8)} {text : List UInt8}
    (h : Continued pieces text) (hplain : ∀ p ∈ pieces, Plain p) (before : List (List UInt8))
    (hall : all = before ++ pieces) :
    Beside (Facing name all) Chunk.Moved
      (Position.past ⟨name, .start⟩ (before.flatMap (· ++ [Byte.space])))
      (chunks c m ([Byte.space].intercalate pieces))
      ⟨name, ⟨before.length + 1, 1⟩⟩ (chunks c m text) := by
  induction h generalizing before with
  | last piece =>
    rw [List.intercalate_singleton]
    exact beside_piece m name hall (hplain piece (List.mem_cons_self ..))
  | @joined piece joint pieces text hjoint hmore ih =>
    obtain ⟨hpiece, hplain⟩ := List.forall_mem_cons.1 hplain
    have hne : pieces ≠ [] := by cases hmore <;> exact List.cons_ne_nil _ _
    obtain ⟨l, hmeaning, hfindings, hchunks⟩ := exists_chunks_joint m hc hjoint text
    have hspace : Stopped ([Byte.space] ++ [Byte.space].intercalate pieces) := stopped_cons rfl _
    have hall' : all = (before ++ [piece]) ++ pieces := by rw [hall, List.append_cons]
    rw [List.intercalate_cons_of_ne_nil hne, List.append_assoc, chunks_piece m hpiece hspace,
      List.singleton_append, chunks_space, chunks_piece m hpiece (stopped_joint hjoint text), hchunks]
    refine (beside_piece m name hall hpiece).append ?_
    rw [flatMap_chunks]
    refine .cons (facing_piece name hall hpiece (List.prefix_refl piece)) (.joint hmeaning hfindings) ?_
    have hpos : ((Position.past ⟨name, .start⟩ (before.flatMap (· ++ [Byte.space]))).past piece).past
        spaceChunk.bytes =
          Position.past ⟨name, .start⟩ ((before ++ [piece]).flatMap (· ++ [Byte.space])) := by
      rw [← Position.past_append, ← Position.past_append, List.flatMap_append,
        List.flatMap_singleton]
      rfl
    have hline : (Position.past ⟨name, ⟨before.length + 1, 1⟩⟩ piece).past joint =
        ⟨name, ⟨(before ++ [piece]).length + 1, 1⟩⟩ := by
      rw [past_joint hjoint, Position.past_eq _ hpiece.lineFeed, List.length_append]
      rfl
    rw [hpos, hline]
    exact ih hplain (before ++ [piece]) hall'

end Chunks
end Continued

/-! ### Scans -/

namespace Scanner

/-- Nothing ends a line in a text without a line feed. -/
theorem token_ne_separator {c : Config} {m : Charmap} {name : String} {loc : Location}
    {text : List UInt8} (htext : Byte.lineFeed ∉ text) {t : Turn}
    (ht : t ∈ (ofText c m name loc text).turns.1) : t.found.token ≠ .separator := by
  rw [turns_ofText] at ht
  rcases List.mem_append.1 ht with ht | ht
  · have hbare := List.mem_map_of_mem (f := (·.found.bare)) ht
    rw [Reading.map_found_turns _ fun k hk => not_lineEnd_of_mem_chunks m htext hk] at hbare
    have hend : Lexeme.isEnd t.found.bare.token = false :=
      Chunk.isEnd_of_mem_tokens (fun k hk => hk) hbare
    have hend : Lexeme.isEnd t.found.token = false := hend
    intro heq
    rw [heq] at hend
    contradiction
  · rw [List.mem_singleton.1 ht]
    exact Token.noConfusion

/-- **A backslash at the end of a line is a blank.** Pieces on lines that are joined are scanned as if
spaces joined them, with the same tokens and attributes and the same messages. No token is a separator,
and everything stands on the line of its piece. -/
theorem turns_continued {c : Config} (hc : c.features.lineCont = true) (m : Charmap) (name : String)
    {pieces : List (List UInt8)} {text : List UInt8} (h : Continued pieces text)
    (hplain : ∀ p ∈ pieces, Continued.Plain p) :
    let spaced := (ofText c m name .start ([Byte.space].intercalate pieces)).turns.1
    let continued := (ofText c m name .start text).turns.1
    List.Forall₂ (Turn.Moved (Facing name pieces)) spaced continued ∧
      ∀ t ∈ continued, t.found.token ≠ .separator := by
  intro spaced continued
  have hmoved : List.Forall₂ (Turn.Moved (Facing name pieces)) spaced continued := by
    let r : Reading := ⟨⟨.initial, .none, false, ⟨name, .start⟩⟩, false, [], ⟨name, .start⟩⟩
    have hr : r.Moved (Facing name pieces) r := ⟨rfl, rfl, .nil⟩
    have hspaced : spaced = _ := turns_ofText c m name .start _
    have hcontinued : continued = _ := turns_ofText c m name .start text
    rw [hspaced, hcontinued]
    exact simulation_moved.turns_beside hr (h.beside m name hc hplain [] rfl)
  refine ⟨hmoved, fun t ht hseparator => ?_⟩
  have htokens : spaced.map (·.found.token) = continued.map (·.found.token) := by
    rw [← List.forall₂_eq_eq_eq, List.forall₂_map_left_iff, List.forall₂_map_right_iff]
    exact hmoved.imp fun _ _ ht => ht.token
  have hmem : Token.separator ∈ spaced.map (·.found.token) := by
    rw [htokens]
    exact List.mem_map.2 ⟨t, ht, hseparator⟩
  obtain ⟨t', ht', hseparator⟩ := List.mem_map.1 hmem
  have hline : Byte.lineFeed ∉ [Byte.space].intercalate pieces :=
    not_mem_intercalate (by decide) fun p hp => (hplain p hp).lineFeed
  exact token_ne_separator hline ht' hseparator

/-- A dollar sign and a digit, which are no number together. -/
theorem turns_continued_dollar :
    let c : Config := {features := {lineCont := true}}
    let pieces := [[Byte.dollar], [Byte.one]]
    let text := [Byte.dollar, Byte.backslash, Byte.carriageReturn, Byte.lineFeed, Byte.one]
    c.features.lineCont = true ∧ Continued pieces text ∧ (∀ p ∈ pieces, Continued.Plain p) ∧
      List.Forall₂ (Turn.Moved (Facing "t.s" pieces))
        (ofText c default "t.s" .start [Byte.dollar, Byte.space, Byte.one]).turns.1
        (ofText c default "t.s" .start text).turns.1 ∧
      ∀ t ∈ (ofText c default "t.s" .start text).turns.1, t.found.token ≠ .separator := by
  intro c pieces text
  have hjoint : [Byte.backslash, Byte.carriageReturn, Byte.lineFeed] ∈ Continued.joints := by decide
  have hcontinued : Continued pieces text := .joined [Byte.dollar] hjoint (.last [Byte.one])
  have hplain : ∀ p ∈ pieces, Continued.Plain p := by decide
  exact ⟨rfl, hcontinued, hplain, turns_continued (c := c) rfl default "t.s" hcontinued hplain⟩

end Scanner
end AsmScan
