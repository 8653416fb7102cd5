import AsmScan.Proofs.Scanner.Intake
import AsmScan.Proofs.Scanner.Run
import Mathlib.Logic.Relation

/-! Separators in a run.

A run is recorded by its calls of `next`, whatever is done between them (`Recorded`), and
whatever can be reached has such a record (`Reachable.exists_recorded`). What a scanner
needs to know of the calls before is the token found last, and it keeps that until the
next call (`Recorded.keeps`), so each call marks the ends of lines as the one before it
demands: `separators_of_recorded` says that no separator comes first or follows another,
and that no end of a line goes unmarked between two tokens that are none. -/
namespace AsmScan.Scanner

/-- A call of `next`, with the sources before and after it and what it took from them. -/
structure Call where
  config : Config
  before : List Frame
  taken : List Intake
  after : List Frame
  found : Token

namespace Call

/-- The sources hold afterwards what they held before, but for what was taken. -/
def Accounts (c : Call) : Prop := ∃ left, Drains c.before c.taken left ∧ Settles left c.after

/-- How a call follows another. The ends of lines are marked once, if at all, and always once the line
is not empty. -/
structure Follows (c d : Call) : Prop where
  /-- Between the calls sources are entered and left, and none is read. -/
  between : Relation.ReflTransGen Handled c.after d.before
  once : c.found = .separator → d.found ≠ .separator
  always : c.found ≠ .separator → d.found ≠ .separator → ∀ i ∈ d.taken, ¬ i.EndsLine d.config

end Call

/-- What a call of `next` comes to. -/
def call (s : Scanner) : Call :=
  { config := s.config
    before := s.input.frames
    taken := s.taken false
    after := s.next.input.frames
    found := s.next.current.token }

/-- A scanner that has been brought to where it is from its opening on, with the calls of `next` that
were made, the oldest first. -/
inductive Recorded : Scanner → List Call → Prop where
  | opened {s : Scanner} : Opened s → Recorded s []
  | next {s : Scanner} {calls : List Call} (files : FileSystem) :
      Recorded s calls → Recorded (s.perform files .next).2 (calls ++ [s.call])
  | perform {s : Scanner} {calls : List Call} (files : FileSystem) {o : Operation} :
      Recorded s calls → o ≠ .next → Recorded (s.perform files o).2 calls
  | configure {s : Scanner} {calls : List Call} (config : Config) (charmap : Charmap) :
      Recorded s calls → Recorded {s with config, charmap} calls

/-- Whatever can be reached has a record. -/
theorem Reachable.exists_recorded {s : Scanner} (h : Reachable s) : ∃ calls, Recorded s calls := by
  induction h with
  | ofBytes config name bytes => exact ⟨[], .opened (.ofBytes config name bytes)⟩
  | ofFile hopen => exact ⟨[], .opened (.ofFile hopen)⟩
  | @perform s files o _ ih =>
    obtain ⟨calls, hcalls⟩ := ih
    by_cases ho : o = .next
    · subst ho
      exact ⟨_, hcalls.next files⟩
    · exact ⟨calls, hcalls.perform files ho⟩
  | configure config charmap _ ih =>
    obtain ⟨calls, hcalls⟩ := ih
    exact ⟨calls, hcalls.configure config charmap⟩

/-- What a scanner keeps of the last of some calls, if there was one. -/
structure Keeps (s : Scanner) (calls : List Call) : Prop where
  token : s.current.token = (calls.getLast?.map Call.found).getD .initial
  frames : ∀ c ∈ calls.getLast?, Relation.ReflTransGen Handled c.after s.input.frames

/-- Between two calls a scanner keeps the token found last, and reads nothing. -/
theorem Recorded.keeps {s : Scanner} {calls : List Call} (h : Recorded s calls) : Keeps s calls := by
  induction h with
  | opened hopened =>
    obtain ⟨config, f, rfl⟩ := hopened.exists_frame
    exact ⟨rfl, fun _ hc => absurd hc (Option.not_mem_none _)⟩
  | @next s calls files _ _ =>
    have hlast : (calls ++ [s.call]).getLast? = some s.call := List.getLast?_concat
    refine ⟨by rw [hlast]; rfl, fun c hc => ?_⟩
    rw [hlast] at hc
    cases hc
    exact .refl
  | @perform s calls files o _ ho ih =>
    obtain ⟨f, -, hcurrent⟩ := s.refolds_perform files ho
    refine ⟨?_, fun c hc => (ih.frames c hc).tail (s.handled_perform files ho)⟩
    rw [hcurrent, ← ih.token]
  | configure _ _ _ ih => exact ⟨ih.token, ih.frames⟩

section Call
variable {s : Scanner}

theorem accounts_call (s : Scanner) : s.call.Accounts := s.drains_scan false

theorem found_call_ne_separator (h : s.atLineStart = true) : s.call.found ≠ .separator :=
  s.ne_separator_of_atLineStart false h

/-- A call marks the ends of lines as the token found before it demands. -/
theorem follows_call {c : Call} (htoken : s.current.token = c.found) (hfound : c.found ≠ .initial)
    (hframes : Relation.ReflTransGen Handled c.after s.input.frames) : c.Follows s.call := by
  constructor
  case between => exact hframes
  case once =>
    intro hc
    exact found_call_ne_separator (by simp [atLineStart, htoken, hc])
  case always =>
    intro hc hd
    have hline : s.atLineStart = false := by simp [atLineStart, htoken, hc, hfound]
    exact s.not_endsLine_of_mem_taken false hline hd

end Call

/-- What holds of no calls, and goes on holding with each one more, holds of the calls of a run. -/
theorem Recorded.induct {P : List Call → Prop} (hnil : P [])
    (hnext : ∀ {s : Scanner} {calls : List Call}, Recorded s calls → P calls → P (calls ++ [s.call]))
    {s : Scanner} {calls : List Call} (h : Recorded s calls) : P calls := by
  induction h with
  | opened => exact hnil
  | next _ hcalls ih => exact hnext hcalls ih
  | perform _ _ _ ih => exact ih
  | configure _ _ _ ih => exact ih

section Record
variable {s : Scanner} {calls : List Call}

/-- What is shown of each call holds of all calls of a run. -/
theorem Recorded.of_call {p : Call → Prop} (hcall : ∀ s : Scanner, p s.call)
    (h : Recorded s calls) : ∀ c ∈ calls, p c := by
  refine h.induct (P := fun calls => ∀ c ∈ calls, p c)
    (fun _ hc => absurd hc List.not_mem_nil) fun {s calls} _ ih c hc => ?_
  rcases List.mem_append.1 hc with hc | hc
  · exact ih c hc
  · exact List.mem_singleton.1 hc ▸ hcall s

theorem Recorded.head (h : Recorded s calls) : ∀ c ∈ calls.head?, c.found ≠ .separator := by
  refine h.induct (P := fun calls => ∀ c ∈ calls.head?, c.found ≠ .separator)
    (fun _ hc => absurd hc (Option.not_mem_none _)) fun {s calls} hcalls ih c hc => ?_
  cases calls with
  | nil =>
    cases hc
    exact found_call_ne_separator (by simp [atLineStart, hcalls.keeps.token])
  | cons d more => exact ih c hc

theorem Recorded.isChain (h : Recorded s calls) : calls.IsChain Call.Follows := by
  refine h.induct .nil fun {s calls} hcalls ih => ?_
  refine List.isChain_append.2 ⟨ih, .singleton _, fun c hc d hd => ?_⟩
  cases hd
  have hfound : c.found ≠ .initial :=
    hcalls.of_call (p := fun c => c.found ≠ .initial) (fun s => (s.held_scan false).2) c
      (List.mem_of_getLast? hc)
  have htoken : s.current.token = c.found := by
    rw [hcalls.keeps.token, Option.mem_def.1 hc]
    rfl
  exact follows_call htoken hfound (hcalls.keeps.frames c hc)

end Record

/-- **Separators mark the ends of lines**, whatever is done between the calls of `next`. None is found
first, and none directly after another. Where two calls in a row find something else, the second has
read no line feed but to join lines, and it has left no file at its end; nor has anything been read
between the two. What a call is said to have taken is all that it took. -/
theorem separators_of_recorded {s : Scanner} {calls : List Call} (h : Recorded s calls) :
    (∀ c ∈ calls.head?, c.found ≠ .separator) ∧ calls.IsChain Call.Follows ∧
      ∀ c ∈ calls, c.Accounts :=
  ⟨h.head, h.isChain, h.of_call accounts_call⟩

/-- A file without a line feed is entered. Its end is marked, and the line feed after it is not. -/
theorem separators_of_recorded_file :
    let files : FileSystem := fun _ => .ok ⟨[Byte.colon], none⟩
    let s := ((ofBytes {} "t.s" [Byte.lineFeed, Byte.colon]).perform files (.enterFile "a.s")).2
    let calls := [s.call, s.next.call, s.next.next.call]
    Recorded s.next.next.next calls ∧ calls.map Call.found = [.colon, .separator, .colon] ∧
      (∀ c ∈ calls.head?, c.found ≠ .separator) ∧ calls.IsChain Call.Follows ∧
      ∀ c ∈ calls, c.Accounts := by
  intro files s calls
  have hfirst : s.next = _ := scan_found rfl
  have hsecond : s.next.next = _ := (congrArg next hfirst).trans (scan_found rfl)
  have hthird : s.next.next.next = _ :=
    (congrArg next hsecond).trans ((scan_onward rfl).trans (scan_found rfl))
  have hcolon : s.call.found = .colon := congrArg (·.current.token) hfirst
  have hends : s.next.call.found = .separator := congrArg (·.current.token) hsecond
  have hmore : s.next.next.call.found = .colon := congrArg (·.current.token) hthird
  have hentered : Recorded s [] := .perform files (.opened (.ofBytes ..)) nofun
  have h : Recorded s.next.next.next calls := ((hentered.next files).next files).next files
  refine ⟨h, ?_, separators_of_recorded h⟩
  simp only [calls, List.map_cons, List.map_nil, hcolon, hends, hmore]

end AsmScan.Scanner
