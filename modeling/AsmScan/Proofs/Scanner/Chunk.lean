import AsmScan.Proofs.Lexeme.Attribute
import AsmScan.Proofs.Scanner.Call
import AsmScan.Proofs.Location

/-! A text, cut into chunks.

What a text is cut into does not depend on the scan: each lexeme is read off what
the one before it has left (`chunks`). What a scan of the chunks finds does depend on
the token before, because only that tells whether the end of a line is a separator.
A `Reading` is where a scan has come to in a frame, in the midst of a call; `turns`
are the calls that find a token, and `after` is the reading that the chunks leave. -/
namespace AsmScan
open Scanner (Turn)

/-- A lexeme with the bytes that it was read off. -/
structure Chunk where
  bytes : List UInt8
  lexeme : Lexeme
deriving DecidableEq

/-- The chunks of a text, in order. -/
def chunks (c : Config) (m : Charmap) : List UInt8 → List Chunk
  | [] => []
  | first :: rest =>
    let l := Lexeme.read c m first rest
    ⟨(first :: rest).take l.size, l⟩ :: chunks c m ((first :: rest).drop l.size)
termination_by text => text.length
decreasing_by
  have := (Lexeme.read c m first rest).size_pos
  simp only [List.length_drop, List.length_cons]
  omega

section Chunks
variable (c : Config) (m : Charmap)

theorem chunks_nil : chunks c m [] = [] := by rw [chunks]

theorem chunks_cons (first : UInt8) (rest : List UInt8) :
    chunks c m (first :: rest) =
      ⟨(first :: rest).take (Lexeme.read c m first rest).size, Lexeme.read c m first rest⟩ ::
        chunks c m ((first :: rest).drop (Lexeme.read c m first rest).size) := by
  rw [chunks]

/-- The bytes that a lexeme takes are its chunk. -/
theorem chunks_of_read {first : UInt8} {more rest : List UInt8} {l : Lexeme}
    (hread : Lexeme.read c m first (more ++ rest) = l) (hsize : l.size = (first :: more).length) :
    chunks c m (first :: more ++ rest) = ⟨first :: more, l⟩ :: chunks c m rest := by
  rw [List.cons_append, chunks_cons, hread, hsize, ← List.cons_append, List.take_left, List.drop_left]

/-- No byte is lost and none is read twice. -/
theorem flatMap_chunks (text : List UInt8) : (chunks c m text).flatMap Chunk.bytes = text := by
  fun_induction chunks c m text with
  | case1 => rfl
  | case2 first rest l ih => rw [List.flatMap_cons, ih, List.take_append_drop]

/-- The text that begins with a chunk: its first byte picked the rule, and the chunk has as many
bytes as its lexeme takes. -/
theorem exists_of_chunks_eq_cons {text : List UInt8} {k : Chunk} {more : List Chunk}
    (h : chunks c m text = k :: more) :
    ∃ first rest after, text = k.bytes ++ after ∧ text = first :: rest ∧
      k.lexeme = Lexeme.read c m first rest ∧ k.bytes.length = k.lexeme.size ∧
      chunks c m after = more := by
  cases text with
  | nil =>
    rw [chunks_nil] at h
    contradiction
  | cons first rest =>
    rw [chunks_cons] at h
    obtain ⟨rfl, rfl⟩ := List.cons.inj h
    refine ⟨first, rest, _, (List.take_append_drop ..).symm, rfl, rfl, ?_, rfl⟩
    have := Lexeme.size_read_le c m first rest
    exact List.length_take_of_le (by rw [List.length_cons]; omega)

/-- What a chunk means was read from a byte of the text on. -/
theorem exists_read_of_mem_chunks {text : List UInt8} {k : Chunk} (h : k ∈ chunks c m text) :
    ∃ first ∈ text, ∃ rest, k.lexeme = Lexeme.read c m first rest := by
  fun_induction chunks c m text with
  | case1 => contradiction
  | case2 first rest l ih =>
    rcases List.mem_cons.1 h with rfl | h
    · exact ⟨first, List.mem_cons_self .., rest, rfl⟩
    · obtain ⟨first', hfirst, rest', hread⟩ := ih h
      exact ⟨first', List.mem_of_mem_drop hfirst, rest', hread⟩

/-- A chunk has no byte that the text has not. -/
theorem mem_of_mem_chunks {text : List UInt8} {k : Chunk} (h : k ∈ chunks c m text) {b : UInt8}
    (hb : b ∈ k.bytes) : b ∈ text := by
  rw [← flatMap_chunks c m text]
  exact List.mem_flatMap.2 ⟨k, h, hb⟩

/-- A chunk has at least one byte. -/
theorem bytes_ne_nil_of_mem_chunks {text : List UInt8} {k : Chunk} (h : k ∈ chunks c m text) :
    k.bytes ≠ [] := by
  fun_induction chunks c m text with
  | case1 => contradiction
  | case2 first rest l ih =>
    rcases List.mem_cons.1 h with rfl | h
    · intro hnil
      rcases List.take_eq_nil_iff.1 hnil with hsize | htext
      · exact absurd hsize (Nat.ne_of_gt l.size_pos)
      · contradiction
    · exact ih h

end Chunks

/-- The chunk of the same bytes with a changed lexeme. -/
def Chunk.map (g : Lexeme → Lexeme) (k : Chunk) : Chunk := {k with lexeme := g k.lexeme}

/-- A text in which each lexeme is read in a changed form, though not longer or shorter, has its chunks
in that form. Only what is read from the rest of the text, and makes a chunk, has to be looked at. -/
theorem chunks_map {c c' : Config} {m m' : Charmap} {g : Lexeme → Lexeme}
    (hsize : ∀ l, (g l).size = l.size) {text : List UInt8}
    (h : ∀ first rest, first :: rest <:+ text →
      Lexeme.read c m first rest ∈ (chunks c m text).map Chunk.lexeme →
      Lexeme.read c' m' first rest = g (Lexeme.read c m first rest)) :
    chunks c' m' text = (chunks c m text).map (Chunk.map g) := by
  fun_induction chunks c m text with
  | case1 => rw [chunks_nil, List.map_nil]
  | case2 first rest l ih =>
    have hread : Lexeme.read c' m' first rest = g l :=
      h first rest (List.suffix_refl _) (List.mem_cons_self ..)
    have hmore := ih fun first' rest' hsuffix hmem =>
      h first' rest' (hsuffix.trans (List.drop_suffix _ _)) (List.mem_cons_of_mem _ hmem)
    rw [chunks_cons, hread, hsize, hmore, List.map_cons]
    rfl

/-- Two texts have the chunks of the two one after the other, if each lexeme of the first is read as if
the second did not follow. -/
theorem chunks_append_of {c : Config} {m : Charmap} {text tail : List UInt8}
    (h : ∀ first rest, first :: rest <:+ text →
      Lexeme.read c m first (rest ++ tail) = Lexeme.read c m first rest) :
    chunks c m (text ++ tail) = chunks c m text ++ chunks c m tail := by
  fun_induction chunks c m text with
  | case1 => rw [List.nil_append, List.nil_append]
  | case2 first rest l ih =>
    have hsize : l.size ≤ (first :: rest).length := by
      rw [List.length_cons, Nat.add_comm]
      exact Lexeme.size_read_le c m first rest
    have hread : Lexeme.read c m first (rest ++ tail) = l := h first rest (List.suffix_refl _)
    have htake : ((first :: rest) ++ tail).take l.size = (first :: rest).take l.size :=
      List.take_append_of_le_length hsize
    have hdrop : ((first :: rest) ++ tail).drop l.size = (first :: rest).drop l.size ++ tail :=
      List.drop_append_of_le_length hsize
    have hmore := ih fun first' rest' hsuffix =>
      h first' rest' (hsuffix.trans (List.drop_suffix _ _))
    rw [List.cons_append] at htake hdrop ⊢
    rw [chunks_cons, hread, htake, hdrop, hmore, List.cons_append]

/-! ### Reading chunks -/

/-- The position past some bytes. -/
def Position.past (p : Position) (bytes : List UInt8) : Position := {p with loc := p.loc.past bytes}

theorem Position.past_append (p : Position) (a b : List UInt8) :
    p.past (a ++ b) = (p.past a).past b := by
  simp only [Position.past, Location.past_append]

/-- What is reported of some chunks, the first of which stands at a position. -/
def Chunk.reports (pos : Position) : List Chunk → List Message
  | [] => []
  | k :: ks => k.lexeme.messages pos ++ reports (pos.past k.bytes) ks

theorem Chunk.reports_append (pos : Position) (a b : List Chunk) :
    reports pos (a ++ b) = reports pos a ++ reports (pos.past (a.flatMap Chunk.bytes)) b := by
  induction a generalizing pos with
  | nil => rfl
  | cons k ks ih =>
    simp only [List.cons_append, reports, ih, List.append_assoc, List.flatMap_cons,
      Position.past_append]

/-- Where a call has come to. -/
structure Reading where
  /-- The token found last. -/
  current : Occurrence
  /-- Whether something was passed over since. -/
  spaced : Bool
  /-- What the call has reported so far. -/
  reported : List Message
  pos : Position
deriving DecidableEq

namespace Reading

/-- Whether the line is empty so far. -/
def atLineStart (r : Reading) : Bool :=
  r.current.token = .initial || r.current.token = .separator

/-- The token that a chunk is. The end of an empty line is none. -/
def token? (r : Reading) (k : Chunk) : Option (Token × Attr) :=
  match k.lexeme.meaning with
  | .blank | .rejected => none
  | .lineEnd => if r.atLineStart then none else some (.separator, .none)
  | .token t attr => some (t, attr)

/-- The call that ends with a chunk. -/
def turn? (r : Reading) (k : Chunk) : Option Turn :=
  (r.token? k).map fun (t, attr) =>
    ⟨r.reported ++ k.lexeme.messages r.pos, ⟨t, attr, r.spaced, r.pos⟩⟩

/-- The reading after a chunk. A call that finds a token leaves the next one a clean slate. -/
def next (r : Reading) (k : Chunk) : Reading :=
  match r.turn? k with
  | some turn => ⟨turn.found, false, [], r.pos.past k.bytes⟩
  | none =>
    ⟨r.current, r.spaced || k.lexeme.meaning ≠ Meaning.rejected, r.reported ++ k.lexeme.messages r.pos,
     r.pos.past k.bytes⟩

/-- The reading after some chunks. -/
def after (r : Reading) (ks : List Chunk) : Reading := ks.foldl next r

/-- The calls that find a token among the chunks. -/
def turns (r : Reading) : List Chunk → List Turn
  | [] => []
  | k :: ks => (r.turn? k).toList ++ (r.next k).turns ks

/-- The call in which a text that stands alone ends. -/
def ended (r : Reading) : Turn := ⟨r.reported, ⟨.eof, .none, r.spaced, r.pos⟩⟩

theorem next_of_some {r : Reading} {k : Chunk} {t : Turn} (h : r.turn? k = some t) :
    r.next k = ⟨t.found, false, [], r.pos.past k.bytes⟩ := by
  simp only [next, h]

theorem next_of_none {r : Reading} {k : Chunk} (h : r.turn? k = none) :
    r.next k = ⟨r.current, r.spaced || k.lexeme.meaning ≠ Meaning.rejected,
      r.reported ++ k.lexeme.messages r.pos, r.pos.past k.bytes⟩ := by
  simp only [next, h]

/-- A call that ends with a chunk reports what it had to report before, and what the chunk adds. -/
theorem turn_of_some {r : Reading} {k : Chunk} {t : Turn} (h : r.turn? k = some t) :
    ∃ token attr, r.token? k = some (token, attr) ∧
      t = ⟨r.reported ++ k.lexeme.messages r.pos, ⟨token, attr, r.spaced, r.pos⟩⟩ := by
  obtain ⟨⟨token, attr⟩, htoken, rfl⟩ := Option.map_eq_some_iff.1 h
  exact ⟨token, attr, htoken, rfl⟩

theorem turns_of_some {r : Reading} {k : Chunk} {t : Turn} (h : r.turn? k = some t)
    (ks : List Chunk) : r.turns (k :: ks) = t :: (r.next k).turns ks := by
  simp only [turns, h, Option.toList_some, List.singleton_append]

theorem turns_of_none {r : Reading} {k : Chunk} (h : r.turn? k = none) (ks : List Chunk) :
    r.turns (k :: ks) = (r.next k).turns ks := by
  simp only [turns, h, Option.toList_none, List.nil_append]

/-- What a chunk is depends on the token before it only. -/
theorem token?_congr {r r' : Reading} (h : r.current.token = r'.current.token) (k : Chunk) :
    r.token? k = r'.token? k := by
  have hstart : r.atLineStart = r'.atLineStart := by
    rw [Reading.atLineStart, h, Reading.atLineStart]
  rw [Reading.token?, hstart, Reading.token?]

/-- What is passed over, and has nothing wrong with it, only sets the next token off. -/
theorem next_blank (r : Reading) {k : Chunk} (hmeaning : k.lexeme.meaning = .blank)
    (hfindings : k.lexeme.findings = []) :
    r.turn? k = none ∧ r.next k = ⟨r.current, true, r.reported, r.pos.past k.bytes⟩ := by
  have hturn : r.turn? k = none := by simp [turn?, token?, hmeaning]
  refine ⟨hturn, ?_⟩
  rw [next_of_none hturn]
  simp [hmeaning, hfindings, Lexeme.messages]

theorem after_append (r : Reading) (a b : List Chunk) : r.after (a ++ b) = (r.after a).after b :=
  List.foldl_append

theorem turns_append (r : Reading) (a b : List Chunk) :
    r.turns (a ++ b) = r.turns a ++ (r.after a).turns b := by
  induction a generalizing r with
  | nil => rfl
  | cons k ks ih =>
    simp only [List.cons_append, turns, ih, List.append_assoc]
    rfl

theorem pos_next (r : Reading) (k : Chunk) : (r.next k).pos = r.pos.past k.bytes := by
  unfold next
  split <;> rfl

/-- A reading stands past the bytes of its chunks. -/
theorem pos_after (r : Reading) (ks : List Chunk) :
    (r.after ks).pos = r.pos.past (ks.flatMap Chunk.bytes) := by
  induction ks generalizing r with
  | nil => rfl
  | cons k ks ih =>
    calc (r.after (k :: ks)).pos = ((r.next k).after ks).pos := rfl
      _ = r.pos.past ((k :: ks).flatMap Chunk.bytes) := by
        rw [ih, pos_next, List.flatMap_cons, Position.past_append]

/-- The token found last is that of the last call, if there was one. -/
theorem current_after (r : Reading) (ks : List Chunk) :
    (r.after ks).current = ((r.turns ks).getLast?.map Turn.found).getD r.current := by
  induction ks generalizing r with
  | nil => rfl
  | cons k ks ih =>
    show ((r.next k).after ks).current = _
    rw [ih]
    cases ht : r.turn? k with
    | none => rw [turns_of_none ht, next_of_none ht]
    | some t =>
      rw [turns_of_some ht, next_of_some ht]
      cases turns _ ks with
      | nil => rfl
      | cons u us => simp only [List.getLast?_cons, Option.map_some, Option.getD_some]

/-- No chunk of a text is the end of input. -/
theorem token_ne_eof {c : Config} {m : Charmap} {text : List UInt8} {r : Reading} {ks : List Chunk}
    (hks : ks ⊆ chunks c m text) {t : Turn} (ht : t ∈ r.turns ks) : t.found.token ≠ .eof := by
  induction ks generalizing r with
  | nil => contradiction
  | cons k ks ih =>
    obtain ⟨hk, hks⟩ := List.cons_subset.1 hks
    rcases List.mem_append.1 ht with ht | ht
    · obtain ⟨token, attr, htoken, rfl⟩ := turn_of_some (Option.mem_toList.1 ht)
      obtain ⟨first, -, rest, hread⟩ := exists_read_of_mem_chunks c m hk
      have hordinary := Lexeme.ordinary_read c m first rest token attr
      rw [← hread] at hordinary
      intro heof
      simp only at heof
      unfold token? at htoken
      split at htoken
      · contradiction
      · contradiction
      · split at htoken <;> simp_all
      next t' attr' hm =>
        cases htoken
        rw [heof] at hordinary hm
        exact absurd (hordinary hm) (by decide)
    · exact ih hks ht

end Reading
end AsmScan
