import AsmScan.Proofs.CommandLine.Run

/-! Asking for messages only.

What is read of the arguments does not depend on whether only messages are wanted, but
for the switch that asks for it: that is refused a second time, and no other argument
leads back (`Unhushed`). So arguments that do without it come to the same options with it
in front (`ofArguments_quiet`). With these options the same is said on the second output,
and nothing on the first (`hushes_runFiles`). -/
namespace AsmScan.CommandLine
open Scanner (Turn)

/-! ### Arguments -/

/-- The reading of something that has nothing to do with whether only messages are wanted. -/
def KeepsQuiet (read : Reading → Except UsageError Reading) : Prop :=
  ∀ r quiet, read {r with quiet} = (read r).map ({· with quiet})

section KeepsQuiet
variable {read : Reading → Except UsageError Reading}

theorem KeepsQuiet.quiet_eq (h : KeepsQuiet read) {r r' : Reading} (hread : read r = .ok r') :
    r'.quiet = r.quiet := by
  have hkeeps : read r = (read r).map ({· with quiet := r.quiet}) := h r r.quiet
  rw [hread] at hkeeps
  have hsame : r' = {r' with quiet := r.quiet} := Except.ok.inj hkeeps
  rw [hsame]

theorem keepsQuiet_give (s : Setting) (value : String) : KeepsQuiet (·.give s value) := by
  intro r quiet
  unfold Reading.give
  dsimp only
  split
  · split
    · rfl
    · split <;> rfl
  · split <;> rfl
  · split
    · rfl
    · split <;> rfl
  · split
    · rfl
    · rcases value.toList with _ | ⟨c, _ | ⟨d, more⟩⟩ <;> rfl

theorem keepsQuiet_settle : KeepsQuiet Reading.settle := by
  intro r quiet
  unfold Reading.settle
  dsimp only
  split
  · rfl
  · rfl
  next s value _ => exact keepsQuiet_give s value {r with pending := none} quiet
  · split <;> rfl

/-- What begins with a look at what was read before. -/
theorem keepsQuiet_settle_bind (h : KeepsQuiet read) : KeepsQuiet fun r => r.settle >>= read := by
  intro r quiet
  dsimp only
  rw [keepsQuiet_settle]
  cases r.settle with
  | error e => rfl
  | ok settled => exact h settled quiet

theorem keepsQuiet_setting (s : Setting) (attached : Option String) :
    KeepsQuiet (·.setting s attached) := by
  refine keepsQuiet_settle_bind fun r quiet => ?_
  cases attached with
  | none => rfl
  | some value => exact keepsQuiet_give s value r quiet

theorem keepsQuiet_add (value : String) : KeepsQuiet (·.add value) := by
  intro r quiet
  unfold Reading.add
  dsimp only
  split
  · rfl
  · rfl
  · exact keepsQuiet_settle_bind (fun _ _ => rfl) r quiet

theorem keepsQuiet_addFiles (names : List String) : KeepsQuiet (·.addFiles names) :=
  keepsQuiet_settle_bind fun r quiet =>
    keepsQuiet_settle {r with pending := some (.files names)} quiet

end KeepsQuiet

/-- After a switch, arguments are read on only if it asks for messages only. -/
theorem quiet_of_switch {r r' : Reading} {s : Switch} (h : r.switch s = .ok (.inl r')) :
    r'.quiet = true := by
  obtain ⟨settled, -, hrest⟩ := ok_of_bind h
  cases s with
  | quiet =>
    dsimp only at hrest
    split at hrest <;> cases hrest
    rfl
  | version | help => cases hrest

theorem quiet_of_readShort {r r' : Reading} {letters : List Char}
    (h : readShort r letters = .ok (.inl r')) (hr : r.quiet = true) : r'.quiet = true := by
  induction letters generalizing r with
  | nil =>
    cases h
    exact hr
  | cons c rest ih =>
    unfold readShort at h
    split at h
    · contradiction
    · obtain ⟨settled, hsetting, hinl⟩ := ok_of_map h
      cases hinl
      exact ((keepsQuiet_setting _ _).quiet_eq hsetting).trans hr
    · obtain ⟨switched, hswitch, hrest⟩ := ok_of_bind h
      cases switched with
      | inl between => exact ih hrest (quiet_of_switch hswitch)
      | inr request => cases hrest

/-- Where messages only are not asked for, they were not before, and it makes no other difference if
they are. -/
def Unhushed (read : Reading → Except UsageError (Reading ⊕ Request)) : Prop :=
  ∀ r r', read r = .ok (.inl r') → r'.quiet = false →
    r.quiet = false ∧ read {r with quiet := true} = .ok (.inl {r' with quiet := true})

theorem KeepsQuiet.unhushed {read : Reading → Except UsageError Reading} (h : KeepsQuiet read) :
    Unhushed fun r => (read r).map .inl := by
  intro r r' hread hr
  obtain ⟨r'', hread, hinl⟩ := ok_of_map hread
  cases hinl
  refine ⟨(h.quiet_eq hread).symm.trans hr, ?_⟩
  dsimp only
  rw [h, hread]
  rfl

theorem unhushed_readLong (text : List Char) : Unhushed (readLong · text) := by
  intro r r' h hr
  unfold readLong at h ⊢
  dsimp only at h ⊢
  split at h
  · contradiction
  · exact (keepsQuiet_setting _ _).unhushed r r' h hr
  · contradiction
  · rw [quiet_of_switch h] at hr
    contradiction

theorem unhushed_readShort (letters : List Char) : Unhushed (readShort · letters) := by
  intro r r' h hr
  cases letters with
  | nil =>
    cases h
    exact ⟨hr, rfl⟩
  | cons c rest =>
    unfold readShort at h ⊢
    dsimp only at h ⊢
    split at h
    · contradiction
    · exact (keepsQuiet_setting _ _).unhushed r r' h hr
    · obtain ⟨switched, hswitch, hrest⟩ := ok_of_bind h
      cases switched with
      | inl between =>
        rw [quiet_of_readShort hrest (quiet_of_switch hswitch)] at hr
        contradiction
      | inr request => cases hrest

theorem unhushed_readArgument (argument : String) : Unhushed (readArgument · argument) := by
  intro r r' h hr
  unfold readArgument at h ⊢
  dsimp only at h ⊢
  split at h
  · exact unhushed_readLong _ r r' h hr
  · exact unhushed_readShort _ r r' h hr
  · exact (keepsQuiet_add argument).unhushed r r' h hr

theorem finish_quiet {r : Reading} {o : Options} (h : r.finish = .ok (.scan o)) :
    r.quiet = o.quiet ∧
      ({r with quiet := true} : Reading).finish = .ok (.scan {o with quiet := true}) := by
  obtain ⟨settled, hsettle, hrest⟩ := ok_of_bind h
  have hquiet := keepsQuiet_settle.quiet_eq hsettle
  unfold Reading.finish
  rw [keepsQuiet_settle, hsettle]
  show _ ∧ (if settled.files.isEmpty then _ else _) = _
  split at hrest
  · contradiction
  next hfiles =>
    rw [if_neg hfiles]
    dsimp only at hrest ⊢
    split at hrest
    · contradiction
    next mark hmark =>
      cases hrest
      exact ⟨hquiet.symm, rfl⟩

theorem readArguments_hushed {r : Reading} {arguments : List String} {o : Options} (hlawful : r.Lawful)
    (h : readArguments r arguments = .ok (.scan o)) (ho : o.quiet = false) :
    r.quiet = false ∧
      readArguments {r with quiet := true} arguments = .ok (.scan {o with quiet := true}) := by
  induction arguments generalizing r with
  | nil =>
    obtain ⟨hquiet, hfinish⟩ := finish_quiet h
    exact ⟨hquiet.trans ho, hfinish⟩
  | cons argument rest ih =>
    unfold readArguments at h
    split at h
    · contradiction
    next heq =>
      -- Behind the mark that ends the options there are only files.
      obtain ⟨rfl, rfl⟩ := List.cons.inj heq
      obtain ⟨added, hadd, hrest⟩ := ok_of_bind h
      have hother : Reading.addFiles {r with quiet := true} rest =
          (r.addFiles rest).map ({· with quiet := true}) := keepsQuiet_addFiles rest r true
      obtain ⟨hquiet, hfinish⟩ := finish_quiet hrest
      refine ⟨((keepsQuiet_addFiles rest).quiet_eq hadd).symm.trans (hquiet.trans ho), ?_⟩
      rw [readArguments, hother, hadd]
      exact hfinish
    next hne heq =>
      obtain ⟨rfl, rfl⟩ := List.cons.inj heq
      obtain ⟨result, hargument, hrest⟩ := ok_of_bind h
      have hsound := sound_readArgument hlawful hargument
      cases result with
      | inl r' =>
        obtain ⟨hr', hmore⟩ := ih hsound hrest
        obtain ⟨hr, hread⟩ := unhushed_readArgument _ r r' hargument hr'
        have hother : readArgument {r with quiet := true} argument =
            .ok (.inl {r' with quiet := true}) := hread
        refine ⟨hr, ?_⟩
        rw [readArguments.eq_3 _ _ _ hne, hother]
        exact hmore
      | inr request =>
        -- What an argument asks for at once is never a scan.
        cases hrest
        exact absurd rfl (hsound o)

/-- Whoever does not ask for messages only can do so at the front. -/
theorem ofArguments_quiet {arguments : List String} {o : Options}
    (h : Request.ofArguments arguments = .ok (.scan o)) (ho : o.quiet = false) :
    Request.ofArguments (Switch.quiet.label :: arguments) = .ok (.scan {o with quiet := true}) := by
  obtain ⟨-, hhushed⟩ := readArguments_hushed (r := {}) ⟨List.not_mem_nil, nofun⟩ h ho
  exact (readArguments_quiet (r := {}) rfl rfl true arguments).trans hhushed

/-! ### Runs -/

/-- Whether a line is for the second output. -/
def Printed.isErr : Printed → Bool
  | .out _ => false
  | .err _ => true

/-- What is left of an outcome where only messages are wanted. -/
def Outcome.hushed (outcome : Outcome) : Outcome :=
  {outcome with printed := outcome.printed.filter Printed.isErr}

section Hushed
variable (files : FileSystem) (o : Options)

theorem printTurn_quiet (t : Turn) :
    printTurn {o with quiet := true} t = (printTurn o t).filter Printed.isErr := by
  unfold printTurn
  dsimp only
  rw [List.filter_append]
  congr 1
  · cases o.config.echo <;> simp [List.filter_map, Printed.isErr, Function.comp_def]
  · cases o.quiet <;> rfl

/-- The table around the rows is all for the first output. -/
theorem filter_table (path : String) (body : List Printed) :
    (if o.quiet then body
      else .out s!"[{path}]" :: tableHead.map .out ++ body ++ [.out tableFoot]).filter Printed.isErr =
      body.filter Printed.isErr := by
  cases o.quiet with
  | true => rfl
  | false => simp [tableHead, Printed.isErr]

/-- A file is scanned in the same way, whatever is printed of it. -/
theorem runFile_quiet (path : String) :
    runFile files {o with quiet := true} path = (runFile files o path).hushed := by
  unfold runFile
  dsimp only
  split
  · rfl
  · have hbody (turns : List Turn) : turns.flatMap (printTurn {o with quiet := true}) =
        (turns.flatMap (printTurn o)).filter Printed.isErr := by
      rw [List.filter_flatMap]
      exact congrArg (turns.flatMap ·) (funext (printTurn_quiet o))
    rw [if_pos rfl, Outcome.hushed, filter_table, hbody]

theorem runFiles_quiet : runFiles files {o with quiet := true} = (runFiles files o).hushed := by
  have hfile : runFile files {o with quiet := true} = fun path => (runFile files o path).hushed :=
    funext (runFile_quiet files o)
  simp only [runFiles, hfile, Outcome.hushed, List.flatMap_map, List.filter_flatMap, List.any_map]
  rfl

end Hushed

/-- Nothing is left for the first output. -/
theorem written_stdout_hushed (printed : List Printed) :
    written Printed.stdout (printed.filter Printed.isErr) = "" := by
  induction printed with
  | nil => rfl
  | cons p more ih =>
    cases p with
    | out line => exact ih
    | err line =>
      rw [List.filter_cons_of_pos rfl, written_cons, ih]
      rfl

/-- And all that is for the second. -/
theorem written_stderr_hushed (printed : List Printed) :
    written Printed.stderr (printed.filter Printed.isErr) = written Printed.stderr printed := by
  induction printed with
  | nil => rfl
  | cons p more ih =>
    cases p with
    | out line =>
      rw [List.filter_cons_of_neg (by simp [Printed.isErr]), ih, written_cons, Printed.stderr,
        String.empty_append]
    | err line => rw [List.filter_cons_of_pos rfl, written_cons, ih, written_cons]

/-- An outcome that says the same as another, but for the first output, on which nothing is said. -/
structure Hushes (outcome hushed : Outcome) : Prop where
  stdout : written Printed.stdout hushed.printed = ""
  stderr : written Printed.stderr hushed.printed = written Printed.stderr outcome.printed
  failed : hushed.failed = outcome.failed

/-- **Where messages only are wanted**, the same is said on the second output and nothing on the first,
and the same files fail. -/
theorem hushes_runFiles (files : FileSystem) (o : Options) :
    Hushes (runFiles files o) (runFiles files {o with quiet := true}) := by
  rw [runFiles_quiet]
  exact ⟨written_stdout_hushed _, written_stderr_hushed _, rfl⟩

/-- A run that wants messages only says the same on the second output and nothing on the first, and
ends with the same status. -/
theorem run_quiet (files : FileSystem) {arguments hushed : List String} {o : Options}
    (h : Request.ofArguments arguments = .ok (.scan o))
    (hhushed : Request.ofArguments hushed = .ok (.scan {o with quiet := true})) :
    written Printed.stdout (run files hushed).1 = "" ∧
      written Printed.stderr (run files hushed).1 = written Printed.stderr (run files arguments).1 ∧
      (run files hushed).2 = (run files arguments).2 := by
  have hhushes := hushes_runFiles files o
  rw [run_scan files h, run_scan files hhushed]
  dsimp only
  rw [hhushes.failed]
  exact ⟨hhushes.stdout, hhushes.stderr, rfl⟩

end AsmScan.CommandLine
