import AsmScan.Proofs.Lexeme.Case
import AsmScan.Proofs.Scanner.Frame

/-! Scans without case.

A text and its copy in capitals are scanned alike (`turns_toUpper`). Their chunks are
read one by one from bytes that differ in case at most, so their lexemes agree
(`chunks_toUpper`), and capitals take no other place than small letters. Two readings
that `Agree` therefore make turns that agree, chunk by chunk (`Reading.Agree.turns`). -/
namespace AsmScan
open Scanner (Turn)

/-! ### Positions -/

theorem Location.advance_toUpper (l : Location) (b : UInt8) :
    l.advance (Byte.toUpper b) = l.advance b := by
  simp only [advance, Byte.toUpper_eq_iff Byte.lineFeed rfl]

theorem Position.past_toUpper (p : Position) (bytes : List UInt8) :
    p.past (bytes.map Byte.toUpper) = p.past bytes := by
  have hloc : p.loc.past (bytes.map Byte.toUpper) = p.loc.past bytes := by
    simp only [Location.past, List.foldl_map, Location.advance_toUpper]
  rw [Position.past, hloc, Position.past]

/-! ### Chunks -/

/-- A chunk and its copy in capitals. -/
structure Chunk.Agree (k k' : Chunk) : Prop where
  bytes : k'.bytes = k.bytes.map Byte.toUpper
  lexeme : k.lexeme.Agree k'.lexeme

theorem chunks_toUpper (c : Config) (m : Charmap) {text : List UInt8}
    (h : Lexeme.Unescaped c.features.stringEscapes text) :
    List.Forall₂ Chunk.Agree (chunks c m text) (chunks c m (text.map Byte.toUpper)) := by
  fun_induction chunks c m text with
  | case1 =>
    rw [List.map_nil, chunks_nil]
    exact .nil
  | case2 first rest l ih =>
    have hagree := Lexeme.agree_read c m first h.tail
    rw [List.map_cons, chunks_cons, ← hagree.size, ← List.map_cons, ← List.map_take, ← List.map_drop]
    exact .cons ⟨rfl, hagree⟩ (ih (h.drop _))

/-! ### Messages -/

/-- Two messages of one kind about one place. -/
structure Message.Agree (msg msg' : Message) : Prop where
  kind : msg.kind = msg'.kind
  pos : msg.pos = msg'.pos

theorem Lexeme.Agree.messages {l l' : Lexeme} (h : l.Agree l') (pos : Position) :
    List.Forall₂ Message.Agree (l.messages pos) (l'.messages pos) := by
  unfold Lexeme.messages
  rw [List.forall₂_map_left_iff, List.forall₂_map_right_iff]
  exact h.findings.imp fun f f' hf => ⟨hf.kind, by simp only [Finding.message, hf.offset]; rfl⟩

/-! ### Turns -/

/-- Two calls that find the same token in the same place, and report the same problems in the same
places. -/
structure Scanner.Turn.Agree (t t' : Turn) : Prop where
  token : t.found.token = t'.found.token
  attr : t.found.attr.Agree t.found.token t'.found.attr
  spaced : t.found.spaced = t'.found.spaced
  pos : t.found.pos = t'.found.pos
  reported : List.Forall₂ Message.Agree t.reported t'.reported

namespace Reading

/-- Two calls that have come to the same place in the same way. -/
structure Agree (r r' : Reading) : Prop where
  token : r.current.token = r'.current.token
  spaced : r.spaced = r'.spaced
  reported : List.Forall₂ Message.Agree r.reported r'.reported
  pos : r.pos = r'.pos

namespace Agree
variable {r r' : Reading} {k k' : Chunk} {ks ks' : List Chunk}

/-- What a call has reported with the next chunk. -/
theorem messages (h : r.Agree r') (hk : k.Agree k') :
    List.Forall₂ Message.Agree (r.reported ++ k.lexeme.messages r.pos)
      (r'.reported ++ k'.lexeme.messages r'.pos) := by
  rw [← h.pos]
  exact List.rel_append h.reported (hk.lexeme.messages r.pos)

/-- Two chunks that agree both end the call, with turns that agree, or neither does. -/
theorem turn? (h : r.Agree r') (hk : k.Agree k') :
    r.turn? k = none ∧ r'.turn? k' = none ∨
      ∃ t t', r.turn? k = some t ∧ r'.turn? k' = some t' ∧ t.Agree t' := by
  have hmessages := h.messages hk
  have hstart : r.atLineStart = r'.atLineStart := by
    rw [Reading.atLineStart, h.token, Reading.atLineStart]
  have htoken {t : Token} {attr attr' : Attr} (hl : r.token? k = some (t, attr))
      (hl' : r'.token? k' = some (t, attr')) (hattr : attr.Agree t attr') :
      ∃ t t', r.turn? k = some t ∧ r'.turn? k' = some t' ∧ t.Agree t' := by
    refine ⟨_, _, by rw [Reading.turn?, hl]; rfl, by rw [Reading.turn?, hl']; rfl, ?_⟩
    exact ⟨rfl, hattr, h.spaced, h.pos, hmessages⟩
  have hnone (hl : r.token? k = none) (hl' : r'.token? k' = none) :
      r.turn? k = none ∧ r'.turn? k' = none := by
    rw [Reading.turn?, Reading.turn?, hl, hl']
    exact ⟨rfl, rfl⟩
  rcases hk.lexeme.meaning.cases with heq | ⟨t, attr, attr', hl, hl', hattr⟩
  · -- The same meaning is the same token, as the line is empty for both or for neither.
    have hsame : r'.token? k' = r.token? k := by
      rw [Reading.token?, Reading.token?, heq, hstart]
    cases hl : r.token? k with
    | none => exact .inl (hnone hl (hsame.trans hl))
    | some a => exact .inr (htoken hl (hsame.trans hl) (.refl ..))
  · exact .inr (htoken (by rw [Reading.token?, hl]) (by rw [Reading.token?, hl']) hattr)

theorem next (h : r.Agree r') (hk : k.Agree k') : (r.next k).Agree (r'.next k') := by
  have hpos : r.pos.past k.bytes = r'.pos.past k'.bytes := by
    rw [hk.bytes, Position.past_toUpper, h.pos]
  rcases h.turn? hk with ⟨hr, hr'⟩ | ⟨t, t', hr, hr', ht⟩
  · have hpassed :
        (k.lexeme.meaning ≠ Meaning.rejected) = (k'.lexeme.meaning ≠ Meaning.rejected) := by
      rcases hk.lexeme.meaning.cases with heq | ⟨t, attr, attr', hl, hl', -⟩
      · rw [heq]
      · simp [hl, hl']
    rw [next_of_none hr, next_of_none hr']
    exact ⟨h.token, by simp only [h.spaced, hpassed], h.messages hk, hpos⟩
  · rw [next_of_some hr, next_of_some hr']
    exact ⟨ht.token, rfl, .nil, hpos⟩

theorem turns (h : r.Agree r') (hks : List.Forall₂ Chunk.Agree ks ks') :
    List.Forall₂ Scanner.Turn.Agree (r.turns ks) (r'.turns ks') := by
  induction hks generalizing r r' with
  | nil => exact .nil
  | cons hk _ ih =>
    rcases h.turn? hk with ⟨hr, hr'⟩ | ⟨t, t', hr, hr', ht⟩
    · rw [turns_of_none hr, turns_of_none hr']
      exact ih (h.next hk)
    · rw [turns_of_some hr, turns_of_some hr']
      exact .cons ht (ih (h.next hk))

theorem after (h : r.Agree r') (hks : List.Forall₂ Chunk.Agree ks ks') :
    (r.after ks).Agree (r'.after ks') := by
  induction hks generalizing r r' with
  | nil => exact h
  | cons hk _ ih => exact ih (h.next hk)

end Agree
end Reading

/-! ### Scans -/

namespace Scanner

/-- **A scan does not depend on the case of letters**, unless escapes do. -/
theorem turns_toUpper (c : Config) (m : Charmap) (name : String) (loc : Location)
    (text : List UInt8) (h : c.features.stringEscapes = false ∨ Byte.backslash ∉ text) :
    List.Forall₂ Turn.Agree (ofText c m name loc text).turns.1
      (ofText c m name loc (text.map Byte.toUpper)).turns.1 := by
  rw [turns_ofText, turns_ofText]
  let r : Reading := ⟨⟨.initial, .none, false, ⟨name, loc⟩⟩, false, [], ⟨name, loc⟩⟩
  have hr : r.Agree r := ⟨rfl, rfl, .nil, rfl⟩
  have hchunks := chunks_toUpper c m h
  obtain ⟨-, hspaced, hreported, hpos⟩ := hr.after hchunks
  exact List.rel_append (hr.turns hchunks) (.cons ⟨rfl, .none, hspaced, hpos, hreported⟩ .nil)

/-- An unknown directive, and a literal that its line cuts off. -/
theorem turns_toUpper_unknown :
    let text : List UInt8 :=
      [Byte.dot, Byte.lowerX, Byte.space, Byte.doubleQuote, Byte.lowerA, Byte.lineFeed]
    let c : Config := {}
    (c.features.stringEscapes = false ∨ Byte.backslash ∉ text) ∧
      List.Forall₂ Turn.Agree (ofText c default "t.s" .start text).turns.1
        (ofText c default "t.s" .start (text.map Byte.toUpper)).turns.1 := by
  intro text c
  have h : Byte.backslash ∉ text := by decide
  exact ⟨.inr h, turns_toUpper c default "t.s" .start text (.inr h)⟩

end Scanner
end AsmScan
