import AsmScan.Proofs.Lexeme.Recast
import AsmScan.Proofs.Scanner.Frame
import AsmScan.Proofs.Scanner.Session

/-! Scans for another machine.

Recasting what is found is all that a processor and a character map do to a scan. A
reading whose chunks are recast makes the recast turns (`Reading.turns_recast`), because
it is recast no end of a line comes in or goes. So the scan for any processor and map is
the recast scan of one for another processor under the identity (`turns_recast`). Two
scans that differ in one of the two are recast from the same scan, and what they differ
in is what recasting changes (`turns_retargeted`). -/
namespace AsmScan
open Scanner (Turn)

section Recast
variable (cpu : Cpu) (m : Charmap)

def Occurrence.recast (o : Occurrence) : Occurrence :=
  {o with token := o.token.recast cpu o.attr, attr := o.attr.recast m o.token}

def Scanner.Turn.recast (t : Turn) : Turn := {t with found := t.found.recast cpu m}

def Chunk.recast : Chunk → Chunk := Chunk.map (Lexeme.recast cpu m)

def Reading.recast (r : Reading) : Reading := {r with current := r.current.recast cpu m}

/-! ### Tokens -/

/-- A name is recast as a name, and anything else as itself. -/
theorem Token.recast_cases (t : Token) (attr : Attr) :
    t.recast cpu attr = t ∨
      (t = .identifier ∨ t = .mnemonic) ∧
        (t.recast cpu attr = .identifier ∨ t.recast cpu attr = .mnemonic) := by
  unfold recast
  split
  · split
    next ht =>
      unfold Cpu.nameToken
      split
      · exact .inr ⟨ht, .inr rfl⟩
      · exact .inr ⟨ht, .inl rfl⟩
    · exact .inl rfl
  · exact .inl rfl

/-- No token that is no name comes in or goes. -/
theorem Token.recast_eq_iff {t : Token} (ht : t ≠ .identifier ∧ t ≠ .mnemonic) (u : Token)
    (attr : Attr) : u.recast cpu attr = t ↔ u = t := by
  rcases u.recast_cases cpu attr with heq | ⟨hname, hname'⟩
  · rw [heq]
  · constructor
    · rintro rfl
      exact absurd hname' (by simp [ht])
    · rintro rfl
      exact absurd hname (by simp [ht])

/-! ### Readings -/

namespace Reading
variable (r : Reading) (k : Chunk)

theorem atLineStart_recast : (r.recast cpu m).atLineStart = r.atLineStart := by
  simp only [atLineStart, recast, Occurrence.recast,
    Token.recast_eq_iff cpu (show Token.initial ≠ .identifier ∧ Token.initial ≠ .mnemonic by decide),
    Token.recast_eq_iff cpu
      (show Token.separator ≠ .identifier ∧ Token.separator ≠ .mnemonic by decide)]

theorem token?_recast : (r.recast cpu m).token? (k.recast cpu m) =
    (r.token? k).map fun (t, attr) => (t.recast cpu attr, attr.recast m t) := by
  have hmeaning : (k.recast cpu m).lexeme.meaning = k.lexeme.meaning.recast cpu m := rfl
  unfold token?
  rw [hmeaning, atLineStart_recast]
  cases k.lexeme.meaning with
  | lineEnd => cases r.atLineStart <;> rfl
  | _ => rfl

theorem turn?_recast :
    (r.recast cpu m).turn? (k.recast cpu m) = (r.turn? k).map (Turn.recast cpu m) := by
  unfold turn?
  rw [token?_recast, Option.map_map, Option.map_map]
  rfl

theorem next_recast : (r.recast cpu m).next (k.recast cpu m) = (r.next k).recast cpu m := by
  have hrejected : (k.recast cpu m).lexeme.meaning = .rejected ↔ k.lexeme.meaning = .rejected := by
    show k.lexeme.meaning.recast cpu m = .rejected ↔ _
    cases k.lexeme.meaning <;> simp [Meaning.recast]
  have hturn := r.turn?_recast cpu m k
  cases ht : r.turn? k with
  | none =>
    rw [ht] at hturn
    rw [next_of_none ht, next_of_none hturn]
    simp only [ne_eq, hrejected]
    rfl
  | some t =>
    rw [ht] at hturn
    rw [next_of_some ht, next_of_some hturn]
    rfl

theorem turns_recast (ks : List Chunk) :
    (r.recast cpu m).turns (ks.map (Chunk.recast cpu m)) = (r.turns ks).map (Turn.recast cpu m) := by
  induction ks generalizing r with
  | nil => rfl
  | cons k ks ih =>
    rw [List.map_cons, turns, turns, turn?_recast, next_recast, ih, List.map_append]
    cases r.turn? k <;> rfl

theorem after_recast (ks : List Chunk) :
    (r.recast cpu m).after (ks.map (Chunk.recast cpu m)) = (r.after ks).recast cpu m := by
  induction ks generalizing r with
  | nil => rfl
  | cons k ks ih =>
    show ((r.recast cpu m).next (k.recast cpu m)).after _ = ((r.next k).after ks).recast cpu m
    rw [next_recast, ih]

end Reading

end Recast

namespace Scanner

/-- **The scan for a processor and under a character map** is the scan for any processor under the
identity, recast. -/
theorem turns_recast (cpu : Cpu) (m : Charmap) (c : Config) (name : String) (loc : Location)
    (text : List UInt8) :
    (ofText {c with cpu} m name loc text).turns.1 =
      (ofText c .identity name loc text).turns.1.map (Turn.recast cpu m) := by
  have hchunks : chunks {c with cpu} m text = (chunks c .identity text).map (Chunk.recast cpu m) :=
    chunks_map (g := Lexeme.recast cpu m) (fun _ => rfl) fun first rest _ _ =>
      Lexeme.read_recast cpu m c rest first
  let r : Reading := ⟨⟨.initial, .none, false, ⟨name, loc⟩⟩, false, [], ⟨name, loc⟩⟩
  let ks := chunks c .identity text
  have hr : r.recast cpu m = r := rfl
  have hturns : r.turns (ks.map (Chunk.recast cpu m)) = (r.turns ks).map (Turn.recast cpu m) := by
    rw [← Reading.turns_recast, hr]
  have hafter : r.after (ks.map (Chunk.recast cpu m)) = (r.after ks).recast cpu m := by
    rw [← Reading.after_recast, hr]
  rw [turns_ofText, turns_ofText, hchunks, hturns, hafter, List.map_append]
  rfl

/-! ### Two scans -/

/-- Two calls of scans that differ in the character map. -/
structure Turn.Translated (m m' : Charmap) (t t' : Turn) : Prop where
  reported : t.reported = t'.reported
  token : t.found.token = t'.found.token
  spaced : t.found.spaced = t'.found.spaced
  pos : t.found.pos = t'.found.pos
  attr : t.found.token ≠ .charConst → t.found.attr = t'.found.attr
  /-- Both values are made of one byte. -/
  char : t.found.token = .charConst → ∃ b : UInt8,
    t.found.attr = .int (m.translate b).toNat ∧ t'.found.attr = .int (m'.translate b).toNat

/-- Whether a name is taken for an instruction exactly if its capitals are listed for the processor.
Local labels and names with a dot are never taken for one. -/
def Turn.Classified (mark : LocalChar) (cpu : Cpu) (t : Turn) : Prop :=
  t.found.token = .identifier ∨ t.found.token = .mnemonic →
    ∃ s : ShortString, t.found.attr = .str s ∧
      (t.found.token = .mnemonic ↔
        (∃ w ∈ cpu.mnemonics, utf8 w = s.toUpper.bytes) ∧
          s.bytes.head? ≠ some mark.byte ∧ s.bytes.head? ≠ some Byte.dot)

/-- Two calls of scans that differ in the processor. -/
structure Turn.Reclassified (mark : LocalChar) (cpu cpu' : Cpu) (t t' : Turn) : Prop where
  reported : t.reported = t'.reported
  token : t.found.token = t'.found.token ∨
    (t.found.token = .identifier ∨ t.found.token = .mnemonic) ∧
      (t'.found.token = .identifier ∨ t'.found.token = .mnemonic)
  attr : t.found.attr = t'.found.attr
  spaced : t.found.spaced = t'.found.spaced
  pos : t.found.pos = t'.found.pos
  before : t.Classified mark cpu
  after : t'.Classified mark cpu'
  /-- Every instruction of the 6502 is one of the others too. -/
  mnemonic : cpu = .mos6502 → t.found.token = .mnemonic → t'.found.token = .mnemonic

theorem translated_recast (cpu : Cpu) (m m' : Charmap) {t : Turn}
    (h : Held t.found.token t.found.attr) :
    Turn.Translated m m' (t.recast cpu m) (t.recast cpu m') := by
  obtain ⟨reported, token, attr, spaced, pos⟩ := t
  have htoken : (token.recast cpu attr = .charConst) ↔ token = .charConst :=
    Token.recast_eq_iff cpu (by decide) token attr
  refine ⟨rfl, rfl, rfl, rfl, fun hne => ?_, fun heq => ?_⟩
  · have hchar : token ≠ .charConst := mt htoken.2 hne
    show attr.recast m token = attr.recast m' token
    cases attr <;> simp only [Attr.recast, if_neg hchar]
  · have hchar : token = .charConst := htoken.1 heq
    subst hchar
    obtain ⟨value, rfl⟩ : ∃ value, attr = .int value := h.consistent.int.2 rfl
    exact ⟨_, rfl, rfl⟩

/-- A name that is recast is looked up in the table of the processor. -/
theorem classified_recast (mark : LocalChar) (cpu : Cpu) (m : Charmap) {t : Turn}
    (h : Held t.found.token t.found.attr) : (t.recast cpu m).Classified mark cpu := by
  obtain ⟨reported, token, attr, spaced, pos⟩ := t
  intro hrecast
  have hname : token = .identifier ∨ token = .mnemonic := by
    rcases token.recast_cases cpu attr with heq | ⟨hname, -⟩
    · exact heq ▸ hrecast
    · exact hname
  have hstr : token.hasString = true := by rcases hname with rfl | rfl <;> rfl
  obtain ⟨s, rfl⟩ : ∃ s, attr = .str s := h.consistent.str.2 hstr
  have htoken : token.recast cpu (.str s) = cpu.nameToken s := if_pos hname
  have hmark : Byte.isLetter mark.byte = false := by cases mark <;> rfl
  refine ⟨s, rfl, ?_⟩
  show token.recast cpu (.str s) = .mnemonic ↔ _
  rw [htoken, cpu.nameToken_eq_mnemonic_iff, ← cpu.isMnemonic_iff]
  constructor
  · exact fun h => ⟨h, Lexeme.head?_ne_of_isMnemonic h hmark, Lexeme.head?_ne_of_isMnemonic h rfl⟩
  · exact And.left

/-- For two processors a name is a name, and anything else the same. -/
theorem recast_recast_cases (t : Token) (attr : Attr) (cpu cpu' : Cpu) :
    t.recast cpu attr = t.recast cpu' attr ∨
      (t.recast cpu attr = .identifier ∨ t.recast cpu attr = .mnemonic) ∧
        (t.recast cpu' attr = .identifier ∨ t.recast cpu' attr = .mnemonic) := by
  rcases t.recast_cases cpu attr with heq | ⟨hname, hrecast⟩
  · rcases t.recast_cases cpu' attr with heq' | ⟨hname', hrecast'⟩
    · exact .inl (heq.trans heq'.symm)
    · exact .inr ⟨by rwa [heq], hrecast'⟩
  · rcases t.recast_cases cpu' attr with heq' | ⟨-, hrecast'⟩
    · exact .inr ⟨hrecast, by rwa [heq']⟩
    · exact .inr ⟨hrecast, hrecast'⟩

/-- An instruction of the 6502 is recast as one. -/
theorem recast_eq_mnemonic_of_mos6502 (cpu : Cpu) {t : Token} {attr : Attr}
    (h : t.recast .mos6502 attr = .mnemonic) : t.recast cpu attr = .mnemonic := by
  cases attr with
  | str s =>
    unfold Token.recast at h ⊢
    dsimp only at h ⊢
    split
    next hname =>
      rw [if_pos hname, Cpu.nameToken_eq_mnemonic_iff] at h
      exact (cpu.nameToken_eq_mnemonic_iff s).2 (cpu.isMnemonic_of_mos6502 h)
    next hname => rwa [if_neg hname] at h
  | _ => exact h

theorem reclassified_recast (mark : LocalChar) (cpu cpu' : Cpu) (m : Charmap) {t : Turn}
    (h : Held t.found.token t.found.attr) :
    Turn.Reclassified mark cpu cpu' (t.recast cpu m) (t.recast cpu' m) where
  reported := rfl
  token := recast_recast_cases t.found.token t.found.attr cpu cpu'
  attr := rfl
  spaced := rfl
  pos := rfl
  before := classified_recast mark cpu m h
  after := classified_recast mark cpu' m h
  mnemonic := by
    rintro rfl hmnemonic
    exact recast_eq_mnemonic_of_mos6502 cpu' hmnemonic

/-- **The machine does not interfere with the scan.** Two scans that differ in the character map
differ in the values of character constants; two scans that differ in the processor differ in which
names are taken for instructions. -/
theorem turns_retargeted (c : Config) (name : String) (loc : Location) (text : List UInt8) :
    (∀ m m' : Charmap, List.Forall₂ (Turn.Translated m m')
      (ofText c m name loc text).turns.1 (ofText c m' name loc text).turns.1) ∧
    ∀ (m : Charmap) (cpu cpu' : Cpu), List.Forall₂ (Turn.Reclassified c.localChar cpu cpu')
      (ofText {c with cpu} m name loc text).turns.1
      (ofText {c with cpu := cpu'} m name loc text).turns.1 := by
  refine ⟨fun m m' => ?_, fun m cpu cpu' => ?_⟩
  · have hrun (m : Charmap) : (ofText c m name loc text).turns.1 = _ :=
      turns_recast c.cpu m c name loc text
    rw [hrun m, hrun m', List.forall₂_map_left_iff, List.forall₂_map_right_iff, List.forall₂_same]
    exact fun t ht => translated_recast c.cpu m m' (held_of_mem_turns ht)
  · rw [turns_recast cpu m c, turns_recast cpu' m c, List.forall₂_map_left_iff,
      List.forall₂_map_right_iff, List.forall₂_same]
    exact fun t ht => reclassified_recast c.localChar cpu cpu' m (held_of_mem_turns ht)

end Scanner
end AsmScan
