import AsmScan.CommandLine.Run
import AsmScan.Proofs.CommandLine.Arguments
import AsmScan.Proofs.Scanner.Refusal

/-! Runs, file by file.

Under valid options, the files are made of the runs with each of them alone, whatever came
before (`composed_runFiles`). They fail exactly if something is written on the second
output: a scan fails if it has reported an error, everything that it reports is one
(`Scanner.reports_turns`), and all of it is written there. Arguments only name the options,
and so what holds of these holds of what the program does with its arguments
(`run_files`). -/
namespace AsmScan.CommandLine
open Scanner (Turn)

/-! ### Outputs -/

/-- What is written on one of the outputs. -/
def written (output : Printed → String) (printed : List Printed) : String :=
  String.join (printed.map output)

theorem written_cons (output : Printed → String) (p : Printed) (more : List Printed) :
    written output (p :: more) = output p ++ written output more := by
  simp only [written, List.map_cons, String.join_cons]

theorem written_append (output : Printed → String) (a b : List Printed) :
    written output (a ++ b) = written output a ++ written output b := by
  simp only [written, List.map_append, String.join_append]

theorem written_flatMap (output : Printed → String) {α : Type} (f : α → List Printed)
    (as : List α) :
    written output (as.flatMap f) = String.join (as.map fun a => written output (f a)) := by
  induction as with
  | nil => rfl
  | cons a more ih =>
    rw [List.flatMap_cons, written_append, ih, List.map_cons, String.join_cons]

/-- Whether no line is one for the second output. -/
def Silent (printed : List Printed) : Prop := ∀ p ∈ printed, ∃ line, p = .out line

theorem silent_flatMap {α : Type} {f : α → List Printed} {as : List α} :
    Silent (as.flatMap f) ↔ ∀ a ∈ as, Silent (f a) := by
  constructor
  · exact fun h a ha p hp => h p (List.mem_flatMap.2 ⟨a, ha, hp⟩)
  · intro h p hp
    obtain ⟨a, ha, hp⟩ := List.mem_flatMap.1 hp
    exact h a ha p hp

/-- No line is empty once it is written. -/
theorem written_stderr_iff (printed : List Printed) :
    written Printed.stderr printed = "" ↔ Silent printed := by
  induction printed with
  | nil => simp [written, Silent]
  | cons p more ih =>
    rw [written_cons, String.append_eq_empty_iff, ih]
    cases p <;> simp [Printed.stderr, Silent, String.append_eq_empty_iff]

/-! ### One file -/

section File
variable (files : FileSystem) {o : Options}

theorem silent_printTurn (ho : o.config.echo = true) (t : Turn) :
    Silent (printTurn o t) ↔ t.reported = [] := by
  unfold printTurn
  rw [if_pos ho]
  cases t.reported with
  | nil => cases o.quiet <;> simp [Silent]
  | cons m more => simp [Silent]

/-- The table around the rows is all for the first output. -/
theorem silent_table (o : Options) (path : String) (body : List Printed) :
    Silent (if o.quiet then body
      else .out s!"[{path}]" :: tableHead.map .out ++ body ++ [.out tableFoot]) ↔ Silent body := by
  cases o.quiet with
  | true => rfl
  | false => simp [Silent, tableHead, or_imp, forall_and]

/-- A scan of which nothing was reported before has as many errors as messages. -/
theorem errorCount_turns {s : Scanner} (hs : s.diagnostics = .empty) :
    s.turns.2.diagnostics.errorCount = (s.turns.1.flatMap Turn.reported).length := by
  have hreports := s.reports_turns
  have hall : (s.turns.1.flatMap Turn.reported).countP Message.isError =
      (s.turns.1.flatMap Turn.reported).length :=
    List.countP_eq_length.2 hreports.isError
  rw [hreports.diagnostics, hs, ← hall]
  simp [Diagnostics.errorCount, Diagnostics.add, Diagnostics.empty]

/-- A file fails exactly if there is something to be said about it. -/
theorem silent_runFile (ho : o.config.echo = true) (path : String) :
    Silent (runFile files o path).printed ↔ (runFile files o path).failed = false := by
  unfold runFile
  split
  next e _ => simp [Silent]
  next scanner hscanner =>
    have hempty : scanner.diagnostics = .empty := by
      unfold Scanner.ofFile at hscanner
      obtain ⟨input, -, rfl⟩ := ok_of_map hscanner
      rfl
    let s : Scanner := {scanner with charmap := o.charmap}
    show Silent (if o.quiet then s.turns.1.flatMap (printTurn o) else _) ↔
      decide (0 < s.turns.2.diagnostics.errorCount) = false
    rw [silent_table, silent_flatMap, errorCount_turns (s := s) hempty, decide_eq_false_iff_not,
      Nat.not_lt, Nat.le_zero, List.length_eq_zero_iff, List.flatMap_eq_nil_iff]
    exact forall₂_congr fun t _ => silent_printTurn ho t

/-! ### All files -/

/-- An outcome that is made of others, one after the other. -/
structure Composed (all : Outcome) (each : List Outcome) : Prop where
  stdout : written Printed.stdout all.printed =
    String.join (each.map fun one => written Printed.stdout one.printed)
  stderr : written Printed.stderr all.printed =
    String.join (each.map fun one => written Printed.stderr one.printed)
  failed : all.failed = true ↔ ∃ one ∈ each, one.failed = true
  silent : all.failed = false ↔ written Printed.stderr all.printed = ""

theorem printed_runFiles (o : Options) :
    (runFiles files o).printed = o.files.flatMap fun path => (runFile files o path).printed :=
  List.flatMap_map ..

/-- A file alone is scanned as it is among others. -/
theorem runFiles_single (o : Options) (path : String) :
    runFiles files {o with files := [path]} = runFile files o path := by
  simp only [runFiles, List.map_cons, List.map_nil, List.flatMap_singleton, List.any_cons,
    List.any_nil, Bool.or_false]
  rfl

theorem valid_single (h : o.Valid) {path : String} (hpath : path ∈ o.files) :
    ({o with files := [path]} : Options).Valid :=
  ⟨h.echo, h.stringEscapes, h.charmap, List.cons_ne_nil _ _, fun hempty =>
    h.named (List.mem_singleton.1 hempty ▸ hpath)⟩

/-- **Files are scanned as each of them is alone**, one after the other. They fail exactly if one of them
does, and exactly if something is said on the second output. -/
theorem composed_runFiles (h : o.Valid) :
    Composed (runFiles files o)
      (o.files.map fun path => runFiles files {o with files := [path]}) := by
  have hwritten (output : Printed → String) : written output (runFiles files o).printed =
      String.join ((o.files.map (runFile files o)).map fun one => written output one.printed) := by
    rw [printed_runFiles, written_flatMap, List.map_map]
    rfl
  simp only [runFiles_single]
  refine ⟨hwritten _, hwritten _, by simp [runFiles], ?_⟩
  rw [written_stderr_iff, printed_runFiles, silent_flatMap]
  simp [runFiles, silent_runFile files h.echo]

/-! ### Arguments -/

/-- The program scans as it is asked to, and its status tells whether that failed. -/
theorem run_scan {arguments : List String} (h : Request.ofArguments arguments = .ok (.scan o)) :
    run files arguments =
      ((runFiles files o).printed, if (runFiles files o).failed then 1 else 0) := by
  unfold run
  rw [h]

theorem map_run_singles {paths : List String} {singles : List (List String)}
    (h : List.Forall₂ (fun path single =>
      Request.ofArguments single = .ok (.scan {o with files := [path]})) paths singles) :
    singles.map (run files) = (paths.map fun path => runFiles files {o with files := [path]}).map
      fun one => (one.printed, if one.failed then 1 else 0) := by
  induction h with
  | nil => rfl
  | cons hsingle _ ih =>
    rw [List.map_cons, List.map_cons, List.map_cons, run_scan files hsingle, ih]

end File

/-- **A run is made of the runs with its files one by one.** Each of them can be asked for. Each output
is that of these runs, one after the other; the run fails exactly if one of them does, and
exactly if something is written on the second output. -/
theorem run_files (files : FileSystem) {arguments : List String} {o : Options}
    (h : Request.ofArguments arguments = .ok (.scan o)) :
    let asks (path : String) (single : List String) : Prop :=
      Request.ofArguments single = .ok (.scan {o with files := [path]})
    (∀ path ∈ o.files, ∃ single, asks path single) ∧
      ∀ singles, List.Forall₂ asks o.files singles →
        let all := run files arguments
        let each := singles.map (run files)
        written Printed.stdout all.1 =
            String.join (each.map fun one => written Printed.stdout one.1) ∧
          written Printed.stderr all.1 =
            String.join (each.map fun one => written Printed.stderr one.1) ∧
          all.2 = (if ∃ one ∈ each, one.2 = 1 then 1 else 0) ∧
          (all.2 = 0 ↔ written Printed.stderr all.1 = "") := by
  intro asks
  have hvalid := valid_of_scan h
  refine ⟨fun path hpath => ⟨_, ofArguments_arguments (valid_single hvalid hpath)⟩, ?_⟩
  intro singles hsingles all each
  have hcomposed := composed_runFiles files hvalid
  have hall : all = _ := run_scan files h
  have heach : each = _ := map_run_singles files hsingles
  have houtput (output : Printed → String) : (each.map fun one => written output one.1) =
      (o.files.map fun path => runFiles files {o with files := [path]}).map
        fun one => written output one.printed := by
    rw [heach]
    exact List.map_map
  have hfailed : (∃ one ∈ each, one.2 = 1) ↔ (runFiles files o).failed = true := by
    rw [hcomposed.failed, heach]
    simp
  refine ⟨?_, ?_, ?_, ?_⟩
  · rw [hall, hcomposed.stdout, houtput]
  · rw [hall, hcomposed.stderr, houtput]
  · rw [hall]
    simp only [hfailed]
  · rw [hall, ← hcomposed.silent]
    cases (runFiles files o).failed <;> simp

/-- A missing file, then a directory and the missing file again. -/
theorem run_files_missing :
    let files : FileSystem := fun path => if path = "d" then .ok .directory else .error .notFound
    let arguments := ["-q", "m", "d", "m"]
    let singles := [["m", "-q"], ["--quiet", "d"], ["-q", "--", "m"]]
    ∃ o, Request.ofArguments arguments = .ok (.scan o) ∧
      List.Forall₂ (fun path single =>
        Request.ofArguments single = .ok (.scan {o with files := [path]})) o.files singles ∧
      written Printed.stderr (run files arguments).1 =
        String.join (singles.map fun single => written Printed.stderr (run files single).1) ∧
      (run files arguments).2 = 1 := by
  intro files arguments singles
  let o : Options := ⟨{echo := true}, default, true, ["m", "d", "m"]⟩
  have h : Request.ofArguments arguments = .ok (.scan o) := rfl
  have hsingles : List.Forall₂ (fun path single =>
      Request.ofArguments single = .ok (.scan {o with files := [path]})) o.files singles :=
    .cons rfl (.cons rfl (.cons rfl .nil))
  obtain ⟨-, hcompose⟩ := run_files files h
  obtain ⟨-, hstderr, -, -⟩ := hcompose singles hsingles
  refine ⟨o, h, hsingles, hstderr, ?_⟩
  rw [run_scan files h]
  rfl

end AsmScan.CommandLine
