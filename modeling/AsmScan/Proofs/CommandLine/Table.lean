import AsmScan.Proofs.CommandLine.Quiet
import AsmScan.Proofs.Scanner.Failure

/-! The table of tokens.

A file that opens is scanned to the same tokens as a text in memory that has its bytes,
even if it could not be read to its end (`found_turns_file`): that only adds a message. So
where a table is wanted, that of a file has the tokens of the text, one row for each, up to
the first end of input (`stdout_runFiles`), and a run that is asked for tables shows these
(`tables_of_run`). -/
namespace AsmScan

/-! ### Tokens -/

namespace Scanner

section Alone
variable {s : Scanner} {f : Frame}

/-- What is found in the only source does not depend on whether it could be read to its end. -/
theorem found_turns_alone (hf : s.forcedEnd = false) (hs : s.input.frames = [f]) :
    let r := s.reading false []
    let ks := chunks s.config s.charmap f.unread
    s.turns.1.map Turn.found = (r.turns ks ++ [(r.after ks).ended]).map Turn.found := by
  intro r ks
  cases hread : f.failure with
  | none => rw [turns_alone hf hs hread]
  | some why =>
    -- The chunks are read all the same, and the step that comes to the failure finds the end of input.
    have hahead := (ahead_alone hf hs).after
    have hframes := frames_readTo hs r ks
    have hend : (s.readTo r ks).AtEnd (f.advance (ks.flatMap Chunk.bytes).length) [] := by
      exact ⟨hahead.unforced, hframes, (InputStack.unread_of_frames hframes).symm.trans hahead.unread⟩
    have hpos : (f.advance (ks.flatMap Chunk.bytes).length).pos = (r.after ks).pos := by
      rw [hahead.pos, InputStack.pos_of_frames hend.frames]
    rw [turns_of_end hf hs (hend.step_eq hread) rfl (Diagnostics.report_eq_add ..), hpos]
    simp only [List.map_append]
    rfl

/-- Scanning to the end is calling up to the first end of input. -/
theorem exists_calls_turns (s : Scanner) :
    ∃ ts e, s.turns.1 = ts ++ [e] ∧ s.calls (ts.length + 1) = ts ++ [e] ∧
      (∀ t ∈ ts, t.found.token ≠ .eof) ∧ e.found.token = .eof := by
  fun_induction turns s with
  | case1 s count after turn heof => exact ⟨[], turn, rfl, rfl, List.forall_mem_nil _, heof⟩
  | case2 s count after turn heof _ more last hmore ih =>
    rw [hmore] at ih
    obtain ⟨ts, e, hturns, hcalls, hts, he⟩ := ih
    refine ⟨turn :: ts, e, congrArg (turn :: ·) hturns, ?_, ?_, he⟩
    · rw [List.length_cons, calls, hcalls]
      rfl
    · exact List.forall_mem_cons.2 ⟨heof, hts⟩

end Alone

/-- What a file is scanned to is what a text with its bytes is. -/
theorem found_turns_file (c : Config) (m : Charmap) (path : String) (contents : Contents) :
    ({ofInput c (.ofFrame (.ofFile path contents)) with charmap := m} : Scanner).turns.1.map
        Turn.found =
      ({ofBytes c path contents.bytes with charmap := m} : Scanner).turns.1.map Turn.found := by
  have hopened := found_turns_alone (f := .ofFile path contents)
    (s := {ofInput c (.ofFrame (.ofFile path contents)) with charmap := m}) rfl rfl
  have htext := found_turns_alone (f := .ofBytes path .start contents.bytes)
    (s := {ofBytes c path contents.bytes with charmap := m}) rfl rfl
  exact hopened.trans htext.symm

end Scanner

namespace CommandLine
open Scanner (Turn)

/-! ### Rows -/

/-- The cells of a row. -/
structure Cells where
  line : String
  column : String
  token : String
  mark : String
  value : String

def Cells.row (c : Cells) : String :=
  s!"│ {c.line} │ {c.column} │ {c.token} │ {c.mark} │ {c.value} │"

/-- What the cells of a token hold. Numbers stand to the right and texts to the left; a value is cut to
its column. -/
structure Cells.Shows (c : Cells) (o : Occurrence) : Prop where
  line : c.line.toList = (toString o.pos.loc.line).toList.leftpad 4 ' '
  column : c.column.toList = (toString o.pos.loc.column).toList.leftpad 3 ' '
  token : c.token.toList = o.token.name.toList.rightpad 10 ' '
  mark : c.mark = if o.spaced then "ws" else "  "
  value : c.value.toList = ((toString o.attr).toList.take 20).rightpad 20 ' '

theorem toList_pad_right (width : Nat) (text : String) :
    (Align.right.pad width text).toList = text.toList.leftpad width ' ' := by
  simp [Align.pad, spaces, List.leftpad, String.length_toList]

theorem toList_pad_left (width : Nat) (text : String) :
    (Align.left.pad width text).toList = text.toList.rightpad width ' ' := by
  simp [Align.pad, spaces, List.rightpad, String.length_toList]

theorem exists_cells (o : Occurrence) : ∃ c : Cells, c.Shows o ∧ tableRow o = c.row := by
  have hmark (spaced : Bool) :
      Align.left.pad 2 (if spaced then "ws" else "") = if spaced then "ws" else "  " := by
    cases spaced <;> rfl
  have hvalue : (Align.left.pad 20 (cut (some 20) (toString o.attr))).toList =
      ((toString o.attr).toList.take 20).rightpad 20 ' ' := by
    rw [toList_pad_left, cut, String.toList_ofList]
  exact ⟨⟨_, _, _, _, _⟩, ⟨toList_pad_right .., toList_pad_right .., toList_pad_left .., hmark _,
    hvalue⟩, rfl⟩

/-! ### Tables -/

/-- The table of some tokens, line by line. -/
def table (path : String) (found : List Occurrence) : List String :=
  s!"[{path}]" :: tableHead ++ found.map tableRow ++ [tableFoot]

/-- Lines as they are written. -/
def lines (ls : List String) : String := String.join (ls.map (· ++ "\n"))

/-- The tokens of a text in memory. -/
def Options.tokens (o : Options) (name : String) (bytes : List UInt8) : List Occurrence :=
  ({Scanner.ofBytes o.config name bytes with charmap := o.charmap} : Scanner).turns.1.map Turn.found

theorem written_stdout_out (ls : List String) : written Printed.stdout (ls.map .out) = lines ls := by
  rw [written, List.map_map]
  rfl

theorem written_stdout_err {α : Type} (f : α → String) (as : List α) :
    written Printed.stdout (as.map fun a => .err (f a)) = "" := by
  induction as with
  | nil => rfl
  | cons a more ih =>
    rw [List.map_cons, written_cons, ih]
    rfl

section Table
variable {files : FileSystem} {o : Options}

/-- A turn has one row. -/
theorem written_printTurn (ho : o.quiet = false) (t : Turn) :
    written Printed.stdout (printTurn o t) = tableRow t.found ++ "\n" := by
  have hreported : written Printed.stdout
      (if o.config.echo then t.reported.map fun m => .err (toString m) else []) = "" := by
    split
    · exact written_stdout_err ..
    · rfl
  rw [printTurn, written_append, hreported, ho, String.empty_append]
  simp [written, Printed.stdout]

theorem written_rows (ho : o.quiet = false) (turns : List Turn) :
    written Printed.stdout (turns.flatMap (printTurn o)) =
      lines ((turns.map Turn.found).map tableRow) := by
  rw [written_flatMap, lines, List.map_map, List.map_map]
  exact congrArg (fun row => String.join (turns.map row)) (funext (written_printTurn ho))

/-- A file that opens has the table of the text. -/
theorem written_runFile (ho : o.quiet = false) {path : String} {contents : Contents}
    (hfile : files path = .ok contents) :
    written Printed.stdout (runFile files o path).printed =
      lines (table path (o.tokens path contents.bytes)) := by
  have hlines (a b : List String) : lines (a ++ b) = lines a ++ lines b := by
    simp only [lines, List.map_append, String.join_append]
  have hhead : written Printed.stdout (.out s!"[{path}]" :: tableHead.map .out) =
      lines (s!"[{path}]" :: tableHead) := written_stdout_out (_ :: tableHead)
  have hfoot : written Printed.stdout [.out tableFoot] = lines [tableFoot] :=
    written_stdout_out [tableFoot]
  unfold runFile
  rw [Scanner.ofFile_eq hfile]
  dsimp only
  rw [if_neg (by simp [ho]), written_append, written_append, hhead, hfoot, written_rows ho,
    Scanner.found_turns_file, table, hlines, hlines, Options.tokens]

/-- One that does not has none. -/
theorem written_runFile_error {path : String} {why : ReadFailure}
    (hfile : files path = .error why) :
    written Printed.stdout (runFile files o path).printed = "" := by
  have hroom : ¬ InputError.maxDepth ≤ InputStack.empty.depth := by decide
  unfold runFile Scanner.ofFile InputStack.pushFile
  rw [if_neg hroom, hfile]
  rfl

/-- **Each file that opens has the table of its text**, and the others have none. -/
theorem stdout_runFiles (ho : o.quiet = false) :
    written Printed.stdout (runFiles files o).printed = String.join (o.files.map fun path =>
      match files path with
      | .error _ => ""
      | .ok contents => lines (table path (o.tokens path contents.bytes))) := by
  rw [printed_runFiles, written_flatMap]
  refine congrArg (fun shown => String.join (o.files.map shown)) (funext fun path => ?_)
  cases hfile : files path with
  | error why => exact written_runFile_error hfile
  | ok contents => exact written_runFile ho hfile

end Table

/-- The tokens of a text are those up to the first end of input. -/
theorem exists_calls_tokens (o : Options) (name : String) (bytes : List UInt8) :
    ∃ ts e,
      let s : Scanner := {Scanner.ofBytes o.config name bytes with charmap := o.charmap}
      o.tokens name bytes = (ts ++ [e]).map Turn.found ∧ s.calls (ts.length + 1) = ts ++ [e] ∧
        (∀ t ∈ ts, t.found.token ≠ .eof) ∧ e.found.token = .eof := by
  obtain ⟨ts, e, hturns, hcalls, hts, he⟩ :=
    ({Scanner.ofBytes o.config name bytes with charmap := o.charmap} : Scanner).exists_calls_turns
  exact ⟨ts, e, congrArg (List.map Turn.found) hturns, hcalls, hts, he⟩

/-- A directory has the end of input and no token else. -/
theorem tokens_directory (o : Options) (name : String) :
    o.tokens name Contents.directory.bytes = [⟨.eof, .none, false, ⟨name, .start⟩⟩] := by
  let s : Scanner := {Scanner.ofBytes o.config name [] with charmap := o.charmap}
  have hover : s.Over := .last (Nat.le_refl 1) rfl rfl
  have heof : s.turn.found.token = .eof := hover.findsEnd.token
  show s.turns.1.map Turn.found = _
  rw [Scanner.turns_of_eof heof, List.map_singleton, Scanner.turn, hover.next_eq]
  rfl

/-- **Both modes see the same scan, and the table is the tokens of the text.** Asking for messages only
leaves the first output empty, and the second and the status as they are. Without that, each file that
opens has a table with a row for each token of the text with its bytes, up to the first end of input. -/
theorem tables_of_run (files : FileSystem) {arguments : List String} {o : Options}
    (h : Request.ofArguments arguments = .ok (.scan o)) (ho : o.quiet = false) :
    Request.ofArguments ("--quiet" :: arguments) = .ok (.scan {o with quiet := true}) ∧
    (∀ hushed, Request.ofArguments hushed = .ok (.scan {o with quiet := true}) →
      written Printed.stdout (run files hushed).1 = "" ∧
      written Printed.stderr (run files hushed).1 = written Printed.stderr (run files arguments).1 ∧
      (run files hushed).2 = (run files arguments).2) ∧
    written Printed.stdout (run files arguments).1 = String.join (o.files.map fun path =>
      match files path with
      | .error _ => ""
      | .ok contents => lines (table path (o.tokens path contents.bytes))) ∧
    (∀ name bytes, ∃ ts e,
      let s : Scanner := {Scanner.ofBytes o.config name bytes with charmap := o.charmap}
      o.tokens name bytes = (ts ++ [e]).map Turn.found ∧ s.calls (ts.length + 1) = ts ++ [e] ∧
        (∀ t ∈ ts, t.found.token ≠ .eof) ∧ e.found.token = .eof) ∧
    (∀ name, o.tokens name Contents.directory.bytes = [⟨.eof, .none, false, ⟨name, .start⟩⟩]) ∧
    ∀ t, ∃ c : Cells, c.Shows t ∧ tableRow t = c.row := by
  refine ⟨ofArguments_quiet h ho, fun _ hhushed => run_quiet files h hhushed, ?_,
    exists_calls_tokens o, tokens_directory o, exists_cells⟩
  rw [run_scan files h]
  exact stdout_runFiles ho

/-- A missing file and a directory. -/
theorem tables_of_run_directory :
    let files : FileSystem := fun path => if path = "d" then .ok .directory else .error .notFound
    let arguments := ["m", "d"]
    ∃ o, Request.ofArguments arguments = .ok (.scan o) ∧ o.quiet = false ∧
      Request.ofArguments ("--quiet" :: arguments) = .ok (.scan {o with quiet := true}) ∧
      written Printed.stdout (run files ("--quiet" :: arguments)).1 = "" ∧
      (run files ("--quiet" :: arguments)).2 = (run files arguments).2 ∧
      written Printed.stdout (run files arguments).1 =
        lines (table "d" [⟨.eof, .none, false, ⟨"d", .start⟩⟩]) := by
  intro files arguments
  let o : Options := ⟨{echo := true}, default, false, ["m", "d"]⟩
  have h : Request.ofArguments arguments = .ok (.scan o) := rfl
  obtain ⟨hquiet, hhushed, htables, -, hdirectory, -⟩ := tables_of_run files h rfl
  obtain ⟨hstdout, -, hstatus⟩ := hhushed _ hquiet
  refine ⟨o, h, rfl, hquiet, hstdout, hstatus, ?_⟩
  rw [htables, ← hdirectory "d"]
  show String.join ["", lines (table "d" (o.tokens "d" []))] = _
  rw [String.join_cons, String.join_cons, String.join_nil, String.empty_append, String.append_empty]
  rfl

end CommandLine
end AsmScan
