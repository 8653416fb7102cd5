import AsmScan.Proofs.Lexeme.Longest
import AsmScan.Proofs.Scanner.RoundTrip

/-! Operators without blanks.

A text of the bytes of operators is cut into operators, greedily: each is the longest
that stands where the one before it ends (`Greedy`). There is one way to do that, and
the scan does it (`turns_operators`), whatever the features are. -/
namespace AsmScan
open Scanner (Turn)

/-- A text, cut into operators, each of which is the longest that stands there. -/
inductive Greedy : List UInt8 → List Operator → Prop where
  | nil : Greedy [] []
  | cons {text : List UInt8} {op : Operator} {ops : List Operator} :
      op.Longest text → Greedy (text.drop op.text.length) ops → Greedy text (op :: ops)

namespace Greedy
variable {text : List UInt8} {ops other : List Operator}

/-- Nothing is left out. -/
theorem flatMap_text (h : Greedy text ops) : ops.flatMap Operator.text = text := by
  induction h with
  | nil => rfl
  | @cons text op _ hop _ ih =>
    obtain ⟨rest, hrest⟩ := hop.front
    rw [List.flatMap_cons, ih, ← hrest, List.drop_left]

/-- There is one way to cut a text greedily. -/
theorem unique (h : Greedy text ops) (h' : Greedy text other) : ops = other := by
  induction h generalizing other with
  | nil =>
    cases h' with
    | nil => rfl
    | @cons _ op _ hop _ => exact absurd (List.prefix_nil.1 hop.front) op.text_ne_nil
  | @cons _ op _ hop _ ih =>
    cases h' with
    | nil => exact absurd (List.prefix_nil.1 hop.front) op.text_ne_nil
    | cons hop' hmore =>
      cases hop.unique hop'
      rw [ih hmore]

end Greedy

/-! ### Chunks -/

/-- The chunk of an operator. -/
def Operator.chunk (op : Operator) : Chunk := ⟨op.text, op.lexeme⟩

/-- A text of the bytes of operators is cut into them greedily. -/
theorem exists_chunks_operators (c : Config) (m : Charmap) {text : List UInt8}
    (h : ∀ b ∈ text, b ∈ Operator.ones.map Prod.fst) :
    ∃ ops, Greedy text ops ∧ chunks c m text = ops.map Operator.chunk := by
  fun_induction chunks c m text with
  | case1 => exact ⟨[], .nil, rfl⟩
  | case2 first rest l ih =>
    obtain ⟨op, hop, hread⟩ := Operator.exists_longest_read c m h
    obtain ⟨ops, hops, hchunks⟩ := ih fun b hb => h b (List.mem_of_mem_drop hb)
    have hl : l = op.lexeme := hread
    have htake : (first :: rest).take op.lexeme.size = op.text :=
      (List.prefix_iff_eq_take.1 hop.front).symm
    clear_value l
    subst hl
    refine ⟨op :: ops, .cons hop hops, ?_⟩
    rw [hchunks, htake]
    rfl

/-! ### Reading -/

/-- The calls that return operators, the first of which stands at a position. -/
def Operator.turns (pos : Position) : List Operator → List Turn
  | [] => []
  | op :: more => ⟨[], ⟨op.token, op.attr, false, pos⟩⟩ :: turns (pos.past op.text) more

/-- Operators are returned one by one, and then the text ends. -/
theorem Reading.turns_map_chunk (ops : List Operator) (found : Occurrence) (pos : Position) :
    let r : Reading := ⟨found, false, [], pos⟩
    let ks := ops.map Operator.chunk
    r.turns ks ++ [(r.after ks).ended] =
      Operator.turns pos ops ++
        [⟨[], ⟨.eof, .none, false, pos.past (ops.flatMap Operator.text)⟩⟩] := by
  induction ops generalizing found pos with
  | nil => rfl
  | cons op more ih =>
    intro r ks
    have hturn : r.turn? op.chunk = some ⟨[], ⟨op.token, op.attr, false, pos⟩⟩ :=
      r.turn?_token op.text rfl rfl
    have hnext : r.next op.chunk = ⟨⟨op.token, op.attr, false, pos⟩, false, [], pos.past op.text⟩ :=
      next_of_some hturn
    have hmore := ih ⟨op.token, op.attr, false, pos⟩ (pos.past op.text)
    rw [← hnext] at hmore
    rw [List.flatMap_cons, Position.past_append, Operator.turns, List.cons_append, ← hmore]
    show r.turns (op.chunk :: more.map Operator.chunk) ++ _ = _
    rw [turns_of_some hturn]
    rfl

namespace Scanner

/-- **Operators are scanned by longest match.** A text of the bytes of operators has its one greedy
cut returned, operator by operator, and nothing is reported. -/
theorem turns_operators (c : Config) (m : Charmap) (name : String) (loc : Location)
    {text : List UInt8} (h : ∀ b ∈ text, b ∈ Operator.ones.map Prod.fst) :
    ∃ ops, (∀ other, Greedy text other ↔ other = ops) ∧ ops.flatMap Operator.text = text ∧
      (ofText c m name loc text).turns.1 =
        Operator.turns ⟨name, loc⟩ ops ++ [⟨[], ⟨.eof, .none, false, ⟨name, loc.past text⟩⟩⟩] := by
  obtain ⟨ops, hops, hchunks⟩ := exists_chunks_operators c m h
  refine ⟨ops, fun other => ⟨fun hother => hother.unique hops, fun hother => hother ▸ hops⟩,
    hops.flatMap_text, ?_⟩
  rw [turns_ofText, hchunks]
  have hturns := Reading.turns_map_chunk ops ⟨.initial, .none, false, ⟨name, loc⟩⟩ ⟨name, loc⟩
  rwa [hops.flatMap_text] at hturns

/-- Operators of which each could go on with what follows it. -/
theorem turns_operators_run :
    let text := utf8 "<<=:::+-&&&"
    (∀ b ∈ text, b ∈ Operator.ones.map Prod.fst) ∧
      ∃ ops, (∀ other, Greedy text other ↔ other = ops) ∧ ops.flatMap Operator.text = text ∧
        (ofText {} default "t.s" .start text).turns.1 =
          Operator.turns ⟨"t.s", .start⟩ ops ++ [⟨[], ⟨.eof, .none, false, ⟨"t.s", ⟨1, 12⟩⟩⟩⟩] := by
  intro text
  have hsubset : text ⊆ Operator.ones.map Prod.fst := by decide
  have h : ∀ b ∈ text, b ∈ Operator.ones.map Prod.fst := fun b hb => hsubset hb
  exact ⟨h, turns_operators {} default "t.s" .start h⟩

end Scanner
end AsmScan
