import AsmScan.Proofs.Lexeme.Feature
import AsmScan.Proofs.Scanner.Line

/-! Features are extensions.

A text that has no use for a feature is scanned the same with it and without, whatever
the other features are (`turns_set`). The bytes of a chunk stand in the text, and what is
wrong with it is reported, so a feature that is idle in the text as a whole is idle in
each lexeme (`chunks_set`). -/
namespace AsmScan
open Scanner (Turn)

/-- Where nothing is reported, nothing is wrong with any chunk. -/
theorem Chunk.findings_eq_nil_of_reports {pos : Position} {ks : List Chunk}
    (h : Chunk.reports pos ks = []) : ∀ k ∈ ks, k.lexeme.findings = [] := by
  induction ks generalizing pos with
  | nil => exact fun k hk => absurd hk List.not_mem_nil
  | cons k ks ih =>
    obtain ⟨hk, hks⟩ := List.append_eq_nil_iff.1 h
    exact List.forall_mem_cons.2 ⟨List.map_eq_nil_iff.1 hk, ih hks⟩

theorem chunks_set (c : Config) (m : Charmap) {f : Feature} {text : List UInt8}
    (habsent : f.Absent text)
    (hclean : f.byte? = none → ∀ k ∈ chunks (c.set f false) m text, k.lexeme.findings = []) :
    chunks (c.set f true) m text = chunks (c.set f false) m text := by
  have hmap : chunks (c.set f true) m text = (chunks (c.set f false) m text).map (Chunk.map id) := by
    apply chunks_map (fun _ => rfl)
    intro first rest hsuffix hmem
    obtain ⟨k, hk, hread⟩ := List.mem_map.1 hmem
    apply Lexeme.read_set
    exact ⟨habsent.mono hsuffix.subset, fun hf => hread ▸ hclean hf k hk⟩
  exact hmap.trans (List.map_id _)

namespace Scanner

/-- **Features are extensions.** A feature that lets stand what is a problem without it changes
nothing about a text in which there is no problem; a feature that gives a meaning to a byte changes
nothing about a text in which that byte does not stand. -/
theorem turns_set (c : Config) (f : Feature) (m : Charmap) (name : String) (loc : Location)
    (text : List UInt8) :
    let off := (ofText (c.set f false) m name loc text).turns.1
    let on := (ofText (c.set f true) m name loc text).turns.1
    (f.byte? = none → (∀ t ∈ off, t.reported = []) → on = off ∧ ∀ t ∈ on, t.reported = []) ∧
      ∀ b, f.byte? = some b → b ∉ text → on = off := by
  intro off on
  have heq (habsent : f.Absent text)
      (hclean : f.byte? = none → ∀ k ∈ chunks (c.set f false) m text, k.lexeme.findings = []) :
      on = off := by
    have hoff : off = _ := turns_ofText (c.set f false) m name loc text
    have hon : on = _ := turns_ofText (c.set f true) m name loc text
    rw [hoff, hon, chunks_set c m habsent hclean]
  refine ⟨fun hbyte hreported => ?_, fun b hbyte hb => ?_⟩
  · have hreports : Chunk.reports ⟨name, loc⟩ (chunks (c.set f false) m text) = [] := by
      rw [← flatMap_reported_ofText]
      exact List.flatMap_eq_nil_iff.2 hreported
    have hsame : on = off := by
      apply heq
      · intro b hb
        rw [hbyte] at hb
        contradiction
      · exact fun _ => Chunk.findings_eq_nil_of_reports hreports
    exact ⟨hsame, hsame ▸ hreported⟩
  · apply heq
    · intro b' hb'
      rw [hbyte] at hb'
      cases hb'
      exact hb
    · intro hnone
      rw [hbyte] at hnone
      contradiction

/-- A backslash in a comment joins no lines, and there an at sign is no part of a name. -/
theorem turns_set_comment :
    let text : List UInt8 := [Byte.semicolon, Byte.backslash, Byte.lineFeed]
    let run (f : Feature) (on : Bool) := (ofText (Config.set {} f on) default "t.s" .start text).turns.1
    (Feature.lineCont.byte? = none ∧ (∀ t ∈ run .lineCont false, t.reported = []) ∧
        run .lineCont true = run .lineCont false) ∧
      Feature.atInIdentifiers.byte? = some Byte.atSign ∧ Byte.atSign ∉ text ∧
        run .atInIdentifiers true = run .atInIdentifiers false := by
  intro text run
  have hclean : ∀ t ∈ run .lineCont false, t.reported = [] := by
    let s := ofText (Config.set {} .lineCont false) default "t.s" .start text
    have hnext : s.next = _ := (scan_onward rfl).trans ((scan_onward rfl).trans (scan_found rfl))
    have hturns : s.turns.1 = [s.turn] := by
      rw [turns_of_eof]
      show s.next.current.token = .eof
      rw [hnext]
    have hturn : s.turn.reported = [] := by
      show s.next.diagnostics.since s.diagnostics.count = []
      rw [hnext]
      rfl
    intro t ht
    have ht : t ∈ s.turns.1 := ht
    rw [hturns, List.mem_singleton] at ht
    rw [ht, hturn]
  have hat : Byte.atSign ∉ text := by decide
  obtain ⟨hjoins, -⟩ := turns_set {} .lineCont default "t.s" .start text
  obtain ⟨-, hnames⟩ := turns_set {} .atInIdentifiers default "t.s" .start text
  exact ⟨⟨rfl, hclean, (hjoins rfl hclean).1⟩, rfl, hat, hnames Byte.atSign rfl hat⟩

end Scanner
end AsmScan
