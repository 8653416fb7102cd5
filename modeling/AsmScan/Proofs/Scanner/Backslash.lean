import AsmScan.Proofs.Lexeme.Backslash
import AsmScan.Proofs.Scanner.Beside

/-! Stray backslashes in a scan.

Where no backslash stands at the end of a line, nothing is joined, and a scan that could
join lines differs from one that could not in a single respect: a stray backslash, though
it is reported in the same place, sets the next token off as if it were a blank
(`turns_lineCont`). Tokens, attributes, positions and messages are the same. -/
namespace AsmScan
open Scanner (Turn)

/-- The call where lines can be joined: a stray backslash that it reports sets its token off. -/
def Scanner.Turn.setOff (t : Turn) : Turn :=
  {t with found := {t.found with
    spaced := t.found.spaced || t.reported.any Message.isStrayBackslash}}

/-! ### Chunks -/

/-- A chunk where lines cannot be joined, and the same one where they can: a stray backslash is passed
over, and in any other chunk none is found. -/
inductive Chunk.SetOff : Chunk → Chunk → Prop where
  | stray {bytes : List UInt8} :
      SetOff ⟨bytes, .stray Byte.backslash⟩ ⟨bytes, (Lexeme.stray Byte.backslash).setOff⟩
  | clear {k : Chunk} : k.lexeme.Clear → SetOff k k

theorem Chunk.SetOff.bytes {k k' : Chunk} (h : k.SetOff k') : k'.bytes = k.bytes := by
  cases h <;> rfl

/-- A text that joins no lines has the same chunks whether lines could be joined or not, but that stray
backslashes are passed over. -/
theorem chunks_set_lineCont (c : Config) (m : Charmap) {text : List UInt8} (h : Unjoined text) :
    List.Forall₂ Chunk.SetOff (chunks (c.set .lineCont false) m text)
      (chunks (c.set .lineCont true) m text) := by
  have hsize (l : Lexeme) : l.setOff.size = l.size := by
    unfold Lexeme.setOff
    split <;> rfl
  have hmap : chunks (c.set .lineCont true) m text =
      (chunks (c.set .lineCont false) m text).map (Chunk.map Lexeme.setOff) :=
    chunks_map hsize fun first rest hsuffix _ =>
      Lexeme.read_set_lineCont c m (h.of_suffix hsuffix)
  rw [hmap, List.forall₂_map_right_iff, List.forall₂_same]
  rintro ⟨bytes, l⟩ hk
  obtain ⟨first, -, rest, rfl⟩ := exists_read_of_mem_chunks _ m hk
  unfold Chunk.map
  by_cases hfirst : first = Byte.backslash
  · rw [hfirst, Lexeme.read_backslash rfl]
    exact .stray
  · have hclear := Lexeme.clear_read (c.set .lineCont false) m hfirst rest
    rw [hclear.setOff]
    exact .clear hclear

/-! ### Reading -/

/-- A lexeme in which no stray backslash is found has no message about one. -/
theorem Lexeme.Clear.messages {l : Lexeme} (h : l.Clear) (pos : Position) :
    (l.messages pos).any Message.isStrayBackslash = false := by
  rw [Lexeme.messages, List.any_map, List.any_eq_false]
  intro f hf hstray
  exact h f hf ((f.problem.isStrayBackslash_toMessage _).1 hstray)

/-- Two calls that have come to the same place: in the second the stray backslashes that are reported
have set the next token off. -/
structure Reading.SetOff (r r' : Reading) : Prop where
  token : r.current.token = r'.current.token
  spaced : r'.spaced = (r.spaced || r.reported.any Message.isStrayBackslash)
  reported : r'.reported = r.reported

/-- Over a stray backslash both calls go on, and in the second it sets off what follows. -/
theorem simulation_setOff :
    Simulation Eq Chunk.SetOff Reading.SetOff (fun t t' => t.setOff = t') where
  turn? := by
    intro r r' k k' hr hpos hk
    cases hk with
    | stray => exact .none
    | clear hclear =>
      unfold Reading.turn?
      rw [Reading.token?_congr hr.token]
      cases r'.token? k with
      | none => exact .none
      | some =>
        refine .some ?_
        simp only [Turn.setOff, hr.spaced, hr.reported, hpos, List.any_append, hclear.messages,
          Bool.or_false]
  next := by
    intro r r' k k' hr hpos hk
    cases hk with
    | @stray bytes =>
      have hstray : ((Lexeme.stray Byte.backslash).messages r.pos).any Message.isStrayBackslash =
          true := by
        rw [Lexeme.messages, List.any_map]
        exact List.any_eq_true.2 ⟨_, List.mem_singleton_self _,
          (Problem.isStrayBackslash_toMessage _ _).2 rfl⟩
      rw [Reading.next_of_none (r := r) rfl, Reading.next_of_none (r := r') rfl]
      refine ⟨hr.token, ?_, ?_⟩
      · simp only [List.any_append, hstray, Bool.or_true]
        exact Bool.or_true r'.spaced
      · rw [hr.reported, hpos]
        rfl
    | clear hclear =>
      unfold Reading.next Reading.turn?
      rw [Reading.token?_congr hr.token]
      cases r'.token? k with
      | none =>
        refine ⟨hr.token, ?_, by simp only [Option.map_none, hr.reported, hpos]⟩
        simp only [Option.map_none, hr.spaced, List.any_append, hclear.messages, Bool.or_false,
          Bool.or_right_comm]
      | some => exact ⟨rfl, rfl, rfl⟩
  ended := by
    intro r r' hr hpos
    simp only [Reading.ended, Turn.setOff, hr.spaced, hr.reported, hpos]

/-! ### Scans -/

namespace Scanner

/-- **Where no lines are joined, only stray backslashes tell whether they could be**, and they tell by
no more than that they set the next token off. -/
theorem turns_lineCont (c : Config) (m : Charmap) (name : String) (loc : Location)
    {text : List UInt8} (h : Unjoined text) :
    (ofText (c.set .lineCont true) m name loc text).turns.1 =
      (ofText (c.set .lineCont false) m name loc text).turns.1.map Turn.setOff := by
  let r : Reading := ⟨⟨.initial, .none, false, ⟨name, loc⟩⟩, false, [], ⟨name, loc⟩⟩
  have hks : Beside Eq Chunk.SetOff r.pos _ r.pos _ :=
    .of_forall₂ (chunks_set_lineCont c m h) (fun k k' hk p => by rw [hk.bytes]) r.pos
  have hr : r.SetOff r := ⟨rfl, rfl, rfl⟩
  have hturns := simulation_setOff.turns_beside hr hks
  rw [← List.forall₂_map_left_iff, List.forall₂_eq_eq_eq] at hturns
  rw [turns_ofText, turns_ofText, hturns]

/-- A register, a stray backslash and a name. -/
theorem turns_lineCont_name :
    let text := [Byte.lowerA, Byte.backslash, Byte.lowerB]
    Unjoined text ∧
      (ofText (Config.set {} .lineCont true) default "t.s" .start text).turns.1 =
        (ofText (Config.set {} .lineCont false) default "t.s" .start text).turns.1.map Turn.setOff := by
  intro text
  have h : Unjoined text := by unfold Unjoined; decide
  exact ⟨h, turns_lineCont {} default "t.s" .start h⟩

/-- The name is set off where lines can be joined, and is not where they cannot. -/
theorem lineCont_spaces :
    let text := [Byte.lowerA, Byte.backslash, Byte.lowerB]
    let spaced (on : Bool) := (ofText (Config.set {} .lineCont on) default "t.s" .start text).turns.1.map
      (·.found.spaced)
    Unjoined text ∧ spaced false = [false, false, false] ∧ spaced true = [false, true, false] := by
  intro text spaced
  have h : Unjoined text := by unfold Unjoined; decide
  have hone {c : Config} {b : UInt8} {rest : List UInt8}
      (hsize : (Lexeme.read c default b rest).size = 1) :
      chunks c default (b :: rest) = ⟨[b], Lexeme.read c default b rest⟩ :: chunks c default rest := by
    rw [chunks_cons, hsize]
    rfl
  refine ⟨h, ?_, ?_⟩
  · show (ofText _ _ _ _ text).turns.1.map _ = _
    rw [turns_ofText, hone rfl, hone rfl, hone rfl, chunks_nil]
    rfl
  · show (ofText _ _ _ _ text).turns.1.map _ = _
    rw [turns_ofText, hone rfl, hone rfl, hone rfl, chunks_nil]
    rfl

end Scanner
end AsmScan
