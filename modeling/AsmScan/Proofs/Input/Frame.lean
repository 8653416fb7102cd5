import AsmScan.Input.Stack
import AsmScan.Proofs.Location
import Mathlib.Logic.Function.Iterate

/-! Frames are read exactly.

A text in memory is read one byte ahead: the byte at which the reading stands has
already been taken from the text (`Lookahead`). After any number of bumps, also past
the end, the lookahead is the byte at that index, one more byte has been taken than
was moved past, and the location is that of the bytes moved past (`bumps_eq`). So the
reading shows what the frame shows that holds the bytes not yet read, and the frame
shows the text byte by byte, each where its line and column are (`bumps_exact`). -/
namespace AsmScan

/-! ### Moving on in a frame -/

namespace Frame

theorem advance_advance (f : Frame) (a b : Nat) :
    (f.advance a).advance b = f.advance (a + b) := by
  simp only [Frame.advance, List.drop_drop, List.take_add, Location.past_append]

theorem isFile_advance (f : Frame) (n : Nat) : (f.advance n).isFile = f.isFile := rfl

theorem bumps_eq_advance (f : Frame) (k : Nat) : bump^[k] f = f.advance k := by
  induction k with
  | zero => rfl
  | succ k ih => rw [Function.iterate_succ_apply', ih, bump, advance_advance]

theorem peek?_advance (f : Frame) (k : Nat) : (f.advance k).peek? = f.unread[k]? := List.head?_drop

/-- At its end a frame goes no further. -/
theorem bump_of_ended {f : Frame} (h : f.unread = []) : f.bump = f := by
  simp only [bump, advance, h, List.take_nil, List.drop_nil]
  exact congrArg (fun unread => {f with unread}) h.symm

/-- A byte further on has a later location. -/
theorem compare_advance (f : Frame) {i j : Nat} (hij : i < j) (hj : j ≤ f.unread.length) :
    compare (f.advance i).loc (f.advance j).loc = .lt := by
  have hread : (f.unread.drop i).take (j - i) ≠ [] := by
    rw [← List.length_pos_iff, List.length_take, List.length_drop]
    omega
  have hlater : compare (f.advance i).loc ((f.advance i).advance (j - i)).loc = .lt :=
    Location.compare_past _ hread
  rwa [advance_advance, Nat.add_sub_cancel' (Nat.le_of_lt hij)] at hlater

end Frame

/-- To move past bytes on a stack moves its top frame, and leaves those below. -/
theorem InputStack.bumps_eq (f : Frame) (below : List Frame) (last : Position) (k : Nat) :
    bump^[k] ⟨f :: below, last⟩ = ⟨Frame.bump^[k] f :: below, last⟩ := by
  induction k with
  | zero => rfl
  | succ k ih =>
    rw [Function.iterate_succ_apply', ih, Function.iterate_succ_apply']
    rfl

/-! ### Reading one byte ahead -/

/-- A text that is being read, with one byte of it taken ahead. -/
structure Lookahead where
  name : String
  loc : Location
  /-- The byte at which the reading stands, none at the end. -/
  peek? : Option UInt8
  text : List UInt8
  /-- How many bytes have been taken from the text. -/
  taken : Nat
deriving DecidableEq

namespace Lookahead

/-- Takes the next byte, if there is one. -/
def take (r : Lookahead) : Lookahead :=
  let byte? := r.text[r.taken]?
  {r with peek? := byte?, taken := r.taken + byte?.isSome.toNat}

/-- A reading that begins: its first byte is taken. -/
def start (name : String) (loc : Location) (text : List UInt8) : Lookahead :=
  (⟨name, loc, none, text, 0⟩ : Lookahead).take

/-- Moves past the byte at which the reading stands, if there is one. -/
def bump (r : Lookahead) : Lookahead :=
  match r.peek? with
  | none => r
  | some b => {r with loc := r.loc.advance b}.take

/-- The reading that stands at an index of its text, or at the end. -/
def reached (name : String) (loc : Location) (text : List UInt8) (k : Nat) : Lookahead :=
  ⟨name, loc.past (text.take k), text[k]?, text, min (k + 1) text.length⟩

/-- What is taken is the byte at the index so far, and the index stops at the end. -/
theorem take_eq {r : Lookahead} (h : r.taken ≤ r.text.length) :
    r.take = {r with peek? := r.text[r.taken]?, taken := min (r.taken + 1) r.text.length} := by
  have htaken : r.taken + (r.text[r.taken]?).isSome.toNat = min (r.taken + 1) r.text.length := by
    by_cases hlt : r.taken < r.text.length
    · rw [List.getElem?_eq_getElem hlt, Option.isSome_some, Bool.toNat_true]
      omega
    · rw [List.getElem?_eq_none (Nat.le_of_not_lt hlt), Option.isSome_none, Bool.toNat_false]
      omega
  rw [take, htaken]

section Bumps
variable (name : String) (loc : Location) (text : List UInt8)

theorem start_eq : start name loc text = reached name loc text 0 := take_eq (Nat.zero_le _)

/-- **One bump goes on to the next index.** At the end there is none, and the reading stays. -/
theorem bump_reached (k : Nat) : (reached name loc text k).bump = reached name loc text (k + 1) := by
  by_cases hk : k < text.length
  · have hbyte : text[k]? = some text[k] := List.getElem?_eq_getElem hk
    have htaken : min (k + 1) text.length = k + 1 := Nat.min_eq_left hk
    have hloc : (loc.past (text.take k)).advance text[k] = loc.past (text.take (k + 1)) := by
      rw [← Location.past_concat, List.take_append_getElem hk]
    simp only [bump, reached, hbyte, htaken, hloc]
    exact take_eq hk
  · -- The whole text is passed and taken, so the next index is reached as this one is.
    have hk : text.length ≤ k := Nat.le_of_not_lt hk
    have hnext : text.length ≤ k + 1 := Nat.le_succ_of_le hk
    have hbyte : text[k]? = none := List.getElem?_eq_none hk
    simp only [bump, reached, hbyte, List.getElem?_eq_none hnext, List.take_of_length_le hk,
      List.take_of_length_le hnext, Nat.min_eq_right hnext,
      Nat.min_eq_right (Nat.le_succ_of_le hnext)]

theorem bumps_eq (k : Nat) : bump^[k] (start name loc text) = reached name loc text k := by
  induction k with
  | zero => exact start_eq name loc text
  | succ k ih => rw [Function.iterate_succ_apply', ih, bump_reached]

end Bumps
end Lookahead

/-! ### What a frame shows -/

namespace Frame

/-- **A frame is read exactly, and stands at the line and column of the text.** After any number of
bumps a text in memory stands at the byte of that index, and from its end on at none, where a bump
changes nothing. It is on the line that the line feeds passed have begun, in the column counted from
the last of them. So its bytes have locations that grow, no two of them the same. On a stack it is
moved in the same way, and reading one byte ahead shows the same throughout, with one byte more
taken than was passed. -/
theorem bumps_exact (name : String) (start : Location) (text : List UInt8) :
    let frame (k : Nat) : Frame := bump^[k] (.ofBytes name start text)
    (∀ k, Lookahead.bump^[k] (.start name start text) =
      ⟨name, (frame k).loc, (frame k).peek?, text, min (k + 1) text.length⟩) ∧
    (∀ k below last, InputStack.bump^[k] ⟨.ofBytes name start text :: below, last⟩ =
      ⟨frame k :: below, last⟩) ∧
    (∀ k, (frame k).peek? = text[k]?) ∧
    (∀ k, text.length ≤ k → (frame k).peek? = none ∧ (frame k).bump = frame k) ∧
    (∀ k, let passed := text.take k
      (frame k).pos =
        ⟨name, start.line + passed.count Byte.lineFeed,
          if Byte.lineFeed ∈ passed then 1 + (passed.rtakeWhile (· != Byte.lineFeed)).length
          else start.column + min k text.length⟩) ∧
    (∀ i j, i < j → j ≤ text.length → compare (frame i).loc (frame j).loc = .lt) ∧
    (∀ i j, i < text.length → j < text.length → i ≠ j → (frame i).loc ≠ (frame j).loc) := by
  intro frame
  have hframe (k : Nat) : frame k = (ofBytes name start text).advance k := bumps_eq_advance _ k
  have hloc (k : Nat) : (frame k).loc = start.past (text.take k) := by
    rw [hframe]
    rfl
  have hpeek (k : Nat) : (frame k).peek? = text[k]? := by
    rw [hframe]
    exact peek?_advance _ k
  have hlater (i j : Nat) (hij : i < j) (hj : j ≤ text.length) :
      compare (frame i).loc (frame j).loc = .lt := by
    rw [hframe, hframe]
    exact compare_advance _ hij hj
  refine ⟨?ahead, ?stacked, hpeek, ?ended, ?location, hlater, ?apart⟩
  case ahead =>
    intro k
    rw [Lookahead.bumps_eq, Lookahead.reached, hloc, hpeek]
  case stacked =>
    intro k below last
    exact InputStack.bumps_eq _ below last k
  case ended =>
    intro k hk
    refine ⟨(hpeek k).trans (List.getElem?_eq_none hk), bump_of_ended ?_⟩
    rw [hframe]
    exact List.drop_eq_nil_of_le hk
  case location =>
    intro k passed
    have hpos : (frame k).pos = ⟨name, start.past passed⟩ := by
      rw [hframe]
      rfl
    rw [hpos, Location.past_eq, List.length_take]
  case apart =>
    intro i j hi hj hne
    rcases Nat.lt_or_gt_of_ne hne with hij | hji
    · exact Location.ne_of_compare (hlater i j hij (Nat.le_of_lt hj))
    · exact (Location.ne_of_compare (hlater j i hji (Nat.le_of_lt hi))).symm

/-- Two lines that begin in the middle of a source, read past their end. -/
theorem bumps_exact_lines :
    let text : List UInt8 := [Byte.lowerA, Byte.lineFeed, Byte.lowerB]
    let frame (k : Nat) : Frame := bump^[k] (.ofBytes "a.s" ⟨3, 7⟩ text)
    (frame 2).peek? = some Byte.lowerB ∧ (frame 2).pos = ⟨"a.s", 4, 1⟩ ∧
      text.length ≤ 5 ∧ (frame 5).peek? = none ∧ (frame 5).bump = frame 5 ∧
      (frame 5).pos = ⟨"a.s", 4, 2⟩ ∧
      1 < 2 ∧ 2 ≤ text.length ∧ compare (frame 1).loc (frame 2).loc = .lt ∧
      0 < text.length ∧ 2 < text.length ∧ 0 ≠ 2 ∧ (frame 0).loc ≠ (frame 2).loc := by
  intro text frame
  obtain ⟨-, -, hpeek, hended, hpos, hlater, hapart⟩ := bumps_exact "a.s" ⟨3, 7⟩ text
  have hfive : text.length ≤ 5 := by decide
  exact ⟨hpeek 2, hpos 2, hfive, (hended 5 hfive).1, (hended 5 hfive).2, hpos 5, by decide, by decide,
    hlater 1 2 (by decide) (by decide), by decide, by decide, by decide,
    hapart 0 2 (by decide) (by decide) (by decide)⟩

end Frame
end AsmScan
