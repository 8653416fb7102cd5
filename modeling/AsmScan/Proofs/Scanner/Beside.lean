import AsmScan.Proofs.Scanner.Frame

/-! Two texts, read side by side.

Two texts that are cut into as many chunks can be read side by side: chunk faces chunk,
and what stands at one position faces what stands at another (`Beside`). A `Simulation`
keeps two readings related from chunk to chunk, and finds a token in both or in neither.
Then as many calls are made on the one side as on the other, and each is related to the
call that it faces (`turns_beside`). -/
namespace AsmScan
open Scanner (Turn)

/-- Options that are both empty or hold what is related, as lists. -/
theorem forall₂_toList {α β : Type} {r : α → β → Prop} {a : Option α} {b : Option β}
    (h : Option.Rel r a b) : List.Forall₂ r a.toList b.toList := by
  cases h with
  | none => exact .nil
  | some hr => exact .cons hr .nil

section Beside
variable {At : Position → Position → Prop} {Faces : Chunk → Chunk → Prop}

/-- Two lists of chunks, each from a position on: chunks that face each other stand at positions that
do, and the lists end at such positions. -/
inductive Beside (At : Position → Position → Prop) (Faces : Chunk → Chunk → Prop) :
    Position → List Chunk → Position → List Chunk → Prop where
  | nil {p p' : Position} : At p p' → Beside At Faces p [] p' []
  | cons {p p' : Position} {k k' : Chunk} {ks ks' : List Chunk} :
      At p p' → Faces k k' → Beside At Faces (p.past k.bytes) ks (p'.past k'.bytes) ks' →
      Beside At Faces p (k :: ks) p' (k' :: ks')

namespace Beside
variable {p p' : Position} {a a' ks ks' : List Chunk}

/-- The same chunks stand beside each other, wherever each front of them ends at positions that do. -/
theorem same (hfaces : ∀ k ∈ ks, Faces k k)
    (hat : ∀ front, front <+: ks.flatMap Chunk.bytes → At (p.past front) (p'.past front)) :
    Beside At Faces p ks p' ks := by
  have hstart : At p p' := hat [] List.nil_prefix
  induction ks generalizing p p' with
  | nil => exact .nil hstart
  | cons k ks ih =>
    obtain ⟨hk, hks⟩ := List.forall_mem_cons.1 hfaces
    have hmore (front : List UInt8) (hfront : front <+: ks.flatMap Chunk.bytes) :
        At ((p.past k.bytes).past front) ((p'.past k.bytes).past front) := by
      rw [← Position.past_append, ← Position.past_append]
      exact hat _ ((List.prefix_append_right_inj k.bytes).2 hfront)
    exact .cons hstart hk (ih hks hmore (hmore [] List.nil_prefix))

/-- Chunks that face each other and take the same place stand beside each other from any position
on. -/
theorem of_forall₂ (hfaces : List.Forall₂ Faces ks ks')
    (hpast : ∀ k k', Faces k k' → ∀ p : Position, p.past k'.bytes = p.past k.bytes) (p : Position) :
    Beside Eq Faces p ks p ks' := by
  induction hfaces generalizing p with
  | nil => exact .nil rfl
  | @cons k k' _ _ hk _ ih =>
    refine .cons rfl hk ?_
    rw [hpast k k' hk]
    exact ih _

/-- What stands beside each other goes on beside each other. -/
theorem append (h : Beside At Faces p a p' a')
    (hmore : Beside At Faces (p.past (a.flatMap Chunk.bytes)) ks
      (p'.past (a'.flatMap Chunk.bytes)) ks') :
    Beside At Faces p (a ++ ks) p' (a' ++ ks') := by
  induction h with
  | nil => exact hmore
  | cons hat hk _ ih =>
    rw [List.flatMap_cons, List.flatMap_cons, Position.past_append, Position.past_append] at hmore
    exact .cons hat hk (ih hmore)

end Beside

/-- Readings that stay related over chunks that face each other, and calls that are related where
they end. -/
structure Simulation (At : Position → Position → Prop) (Faces : Chunk → Chunk → Prop)
    (Kept : Reading → Reading → Prop) (Match : Turn → Turn → Prop) : Prop where
  turn? {r r' : Reading} {k k' : Chunk} :
    Kept r r' → At r.pos r'.pos → Faces k k' → Option.Rel Match (r.turn? k) (r'.turn? k')
  next {r r' : Reading} {k k' : Chunk} :
    Kept r r' → At r.pos r'.pos → Faces k k' → Kept (r.next k) (r'.next k')
  ended {r r' : Reading} : Kept r r' → At r.pos r'.pos → Match r.ended r'.ended

/-- **Texts side by side are scanned side by side**, up to the end of both. -/
theorem Simulation.turns_beside {Kept : Reading → Reading → Prop} {Match : Turn → Turn → Prop}
    (h : Simulation At Faces Kept Match) {r r' : Reading} (hr : Kept r r') {ks ks' : List Chunk}
    (hks : Beside At Faces r.pos ks r'.pos ks') :
    List.Forall₂ Match (r.turns ks ++ [(r.after ks).ended]) (r'.turns ks' ++ [(r'.after ks').ended]) := by
  induction ks generalizing r r' ks' with
  | nil =>
    cases hks with
    | nil hat => exact .cons (h.ended hr hat) .nil
  | cons k ks ih =>
    cases hks with
    | @cons _ _ _ k' _ ks' hat hk hks =>
      rw [← Reading.pos_next, ← Reading.pos_next] at hks
      have hmore := ih (h.next hr hat hk) hks
      have hturn := h.turn? hr hat hk
      rw [Reading.turns, Reading.turns, List.append_assoc, List.append_assoc]
      exact List.rel_append (forall₂_toList hturn) hmore

end Beside
end AsmScan
