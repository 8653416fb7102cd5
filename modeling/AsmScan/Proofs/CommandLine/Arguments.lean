import AsmScan.CommandLine.Request
import AsmScan.Proofs.Charmap
import AsmScan.Proofs.Keyword

/-! What arguments can ask for.

Whatever the arguments, the options that they come to are `Valid`: each argument that is
read keeps to what can be asked for (`Reading.Lawful`). And all valid options can be asked
for, by arguments that name every choice in full (`Options.arguments`), which are read
one by one to the options that they were made of. -/
namespace AsmScan.CommandLine

/-! ### Errors stop everything -/

theorem ok_of_bind {ε α β : Type} {e : Except ε α} {f : α → Except ε β} {b : β}
    (h : (e >>= f) = .ok b) : ∃ a, e = .ok a ∧ f a = .ok b := by
  cases e with
  | error => contradiction
  | ok a => exact ⟨a, rfl, h⟩

theorem ok_of_map {ε α β : Type} {e : Except ε α} {f : α → β} {b : β}
    (h : e.map f = .ok b) : ∃ a, e = .ok a ∧ f a = b := by
  cases e with
  | error => contradiction
  | ok a => exact ⟨a, rfl, Except.ok.inj h⟩

namespace Reading

/-- What can be read: no file without a name, and no map but those that have one. -/
structure Lawful (r : Reading) : Prop where
  files : "" ∉ r.files
  charmap : ∀ m, r.charmap = some m → m = .identity ∨ m = .petscii

section Lawful
variable {r r' : Reading}

/-- Only files and maps matter. -/
theorem Lawful.congr (h : r.Lawful) (hfiles : r'.files = r.files) (hcharmap : r'.charmap = r.charmap) :
    r'.Lawful :=
  ⟨hfiles ▸ h.files, hcharmap ▸ h.charmap⟩

theorem lawful_give {s : Setting} {value : String} (h : r.Lawful) (hgive : r.give s value = .ok r') :
    r'.Lawful := by
  unfold give at hgive
  dsimp only at hgive
  split at hgive
  · split at hgive
    · contradiction
    · split at hgive <;> cases hgive
      exact h.congr rfl rfl
  · split at hgive <;> cases hgive
    exact h.congr rfl rfl
  · split at hgive
    · contradiction
    · split at hgive
      next m hm =>
        cases hgive
        refine ⟨h.files, fun m' hm' => ?_⟩
        cases hm'
        exact Charmap.eq_of_ofName? hm
      · contradiction
  · split at hgive
    · contradiction
    · rcases hchars : value.toList with _ | ⟨c, _ | ⟨d, more⟩⟩ <;> rw [hchars] at hgive <;>
        cases hgive
      exact h.congr rfl rfl

theorem lawful_settle (h : r.Lawful) (hsettle : r.settle = .ok r') : r'.Lawful := by
  unfold settle at hsettle
  split at hsettle
  · cases hsettle
    exact h
  · contradiction
  · exact lawful_give (r := {r with pending := none}) (h.congr rfl rfl) hsettle
  next names _ =>
    split at hsettle
    · contradiction
    next hnames =>
      cases hsettle
      refine ⟨?_, h.charmap⟩
      intro hmem
      rcases List.mem_append.1 hmem with hmem | hmem
      · exact h.files hmem
      · exact hnames (List.contains_iff_mem.2 hmem)

theorem lawful_setting {s : Setting} {attached : Option String} (h : r.Lawful)
    (hsetting : r.setting s attached = .ok r') : r'.Lawful := by
  obtain ⟨settled, hsettle, hrest⟩ := ok_of_bind hsetting
  have hsettled := lawful_settle h hsettle
  cases attached with
  | some value => exact lawful_give hsettled hrest
  | none =>
    cases hrest
    exact hsettled.congr rfl rfl

theorem lawful_add {value : String} (h : r.Lawful) (hadd : r.add value = .ok r') : r'.Lawful := by
  unfold add at hadd
  split at hadd
  · cases hadd
    exact h.congr rfl rfl
  · cases hadd
    exact h.congr rfl rfl
  · obtain ⟨settled, hsettle, hrest⟩ := ok_of_bind hadd
    have hsettled := lawful_settle h hsettle
    cases hrest
    exact hsettled.congr rfl rfl

theorem lawful_addFiles {names : List String} (h : r.Lawful) (hadd : r.addFiles names = .ok r') :
    r'.Lawful := by
  obtain ⟨settled, hsettle, hrest⟩ := ok_of_bind hadd
  have hsettled := lawful_settle h hsettle
  exact lawful_settle (r := {settled with pending := some (.files names)})
    (hsettled.congr rfl rfl) hrest

end Lawful
end Reading

/-- What an argument comes to: more that can be read, or something else than a scan. -/
def Sound : Reading ⊕ Request → Prop
  | .inl r => r.Lawful
  | .inr request => ∀ o, request ≠ .scan o

section Arguments
variable {r : Reading} {result : Reading ⊕ Request}

theorem sound_switch {s : Switch} (h : r.Lawful) (hswitch : r.switch s = .ok result) :
    Sound result := by
  obtain ⟨settled, hsettle, hrest⟩ := ok_of_bind hswitch
  have hsettled := Reading.lawful_settle h hsettle
  cases s with
  | quiet =>
    dsimp only at hrest
    split at hrest <;> cases hrest
    exact hsettled.congr rfl rfl
  | version | help =>
    cases hrest
    exact fun _ => nofun

theorem sound_setting {s : Setting} {attached : Option String} (h : r.Lawful)
    (hread : (r.setting s attached).map .inl = .ok result) : Sound result := by
  obtain ⟨r', hsetting, rfl⟩ := ok_of_map hread
  exact Reading.lawful_setting h hsetting

theorem sound_readLong {text : List Char} (h : r.Lawful) (hread : readLong r text = .ok result) :
    Sound result := by
  unfold readLong at hread
  dsimp only at hread
  split at hread
  · contradiction
  · exact sound_setting h hread
  · contradiction
  · exact sound_switch h hread

theorem sound_readShort {letters : List Char} (h : r.Lawful)
    (hread : readShort r letters = .ok result) : Sound result := by
  induction letters generalizing r with
  | nil =>
    cases hread
    exact h
  | cons c rest ih =>
    unfold readShort at hread
    split at hread
    · contradiction
    · exact sound_setting h hread
    · obtain ⟨switched, hswitch, hrest⟩ := ok_of_bind hread
      have hsound := sound_switch h hswitch
      cases switched with
      | inl r => exact ih hsound hrest
      | inr request =>
        cases hrest
        exact hsound

theorem sound_readArgument {argument : String} (h : r.Lawful)
    (hread : readArgument r argument = .ok result) : Sound result := by
  unfold readArgument at hread
  split at hread
  · exact sound_readLong h hread
  · exact sound_readShort h hread
  · obtain ⟨r', hadd, rfl⟩ := ok_of_map hread
    exact Reading.lawful_add h hadd

end Arguments

/-! ### Valid options -/

/-- Options that arguments can ask for. -/
structure Options.Valid (o : Options) : Prop where
  echo : o.config.echo = true
  /-- There is no argument that turns a feature off, and escapes are on from the start. -/
  stringEscapes : o.config.features.stringEscapes = true
  charmap : o.charmap = .identity ∨ o.charmap = .petscii
  files : o.files ≠ []
  named : "" ∉ o.files

theorem stringEscapes_foldl {fs : Features} (h : fs.stringEscapes = true) (features : List Feature) :
    (features.foldl (fun fs f => fs.set f true) fs).stringEscapes = true := by
  induction features generalizing fs with
  | nil => exact h
  | cons f more ih =>
    apply ih
    cases f <;> first | exact h | rfl

theorem valid_finish {r : Reading} {o : Options} (h : r.Lawful) (hfinish : r.finish = .ok (.scan o)) :
    o.Valid := by
  obtain ⟨settled, hsettle, hrest⟩ := ok_of_bind hfinish
  have hsettled := Reading.lawful_settle h hsettle
  split at hrest
  · contradiction
  next hfiles =>
    dsimp only at hrest
    split at hrest
    · contradiction
    · cases hrest
      have hcharmap : settled.charmap.getD default = .identity ∨
          settled.charmap.getD default = .petscii := by
        cases hm : settled.charmap with
        | none => exact .inl rfl
        | some m => exact hsettled.charmap m hm
      exact ⟨rfl, stringEscapes_foldl rfl _, hcharmap, fun hnil => hfiles (List.isEmpty_iff.2 hnil),
        hsettled.files⟩

theorem valid_readArguments {r : Reading} {arguments : List String} {o : Options} (h : r.Lawful)
    (hread : readArguments r arguments = .ok (.scan o)) : o.Valid := by
  induction arguments generalizing r with
  | nil => exact valid_finish h hread
  | cons argument rest ih =>
    unfold readArguments at hread
    split at hread
    · contradiction
    next heq =>
      obtain ⟨-, rfl⟩ := List.cons.inj heq
      obtain ⟨r', hadd, hfinish⟩ := ok_of_bind hread
      exact valid_finish (Reading.lawful_addFiles h hadd) hfinish
    next heq =>
      obtain ⟨rfl, rfl⟩ := List.cons.inj heq
      obtain ⟨result, hargument, hrest⟩ := ok_of_bind hread
      have hsound := sound_readArgument h hargument
      cases result with
      | inl r => exact ih hsound hrest
      | inr request =>
        cases hrest
        exact absurd rfl (hsound o)

/-- What arguments ask for is valid. -/
theorem valid_of_scan {arguments : List String} {o : Options}
    (h : Request.ofArguments arguments = .ok (.scan o)) : o.Valid :=
  valid_readArguments (r := {}) ⟨List.not_mem_nil, nofun⟩ h

/-! ### Arguments for options -/

/-- The features that are on, turned on one after the other. -/
theorem foldl_toList (fs : Features) (h : fs.stringEscapes = true) :
    fs.toList.foldl (fun fs f => fs.set f true) {} = fs := by
  obtain ⟨a, b, c, d, e, f, g, i⟩ := fs
  cases h
  cases a <;> cases b <;> cases c <;> cases d <;> cases e <;> cases f <;> cases i <;> rfl

def Setting.name : Setting → String
  | .cpu => "cpu"
  | .feature => "feature"
  | .charmap => "charmap"
  | .localChar => "local-char"

/-- The argument that gives a setting its value. -/
def Setting.argument (s : Setting) (value : String) : String := "--" ++ s.name ++ "=" ++ value

theorem readArgument_setting {r : Reading} (s : Setting) (value : String) :
    readArgument r (s.argument value) = (r.setting s (some value)).map .inl := by
  have hlist : (s.argument value).toList = '-' :: '-' :: (s.name.toList ++ '=' :: value.toList) := by
    simp [Setting.argument, String.toList_append]
  have hname : (s.name.toList ++ '=' :: value.toList).takeWhile (· != '=') = s.name.toList := by
    cases s <;> rfl
  have hvalue : (s.name.toList ++ '=' :: value.toList).dropWhile (· != '=') = '=' :: value.toList := by
    cases s <;> rfl
  have hlong : long? s.name = some (.inl s) := by cases s <;> rfl
  unfold readArgument
  rw [hlist]
  show readLong r _ = _
  unfold readLong
  simp only [hname, hvalue, String.ofList_toList, hlong]

/-- Nothing is left to look at. -/
theorem Reading.settle_of_none {r : Reading} (hr : r.pending = none) : r.settle = .ok r := by
  unfold settle
  rw [hr]

/-- The argument that gives a setting a value is read at once. -/
theorem readArguments_setting {r r' : Reading} (hr : r.pending = none) {s : Setting} {value : String}
    (hgive : r.give s value = .ok r') (rest : List String) :
    readArguments r (s.argument value :: rest) = readArguments r' rest := by
  have hsetting : r.setting s (some value) = .ok r' := by
    unfold Reading.setting
    rw [Reading.settle_of_none hr]
    exact hgive
  have hread : readArgument r (s.argument value) = .ok (.inl r') := by
    rw [readArgument_setting, hsetting]
    rfl
  have hne : s.argument value ≠ "--" := by
    intro heq
    have hlength := congrArg (fun text : String => text.toList.length) heq
    simp [Setting.argument, String.toList_append] at hlength
  rw [readArguments.eq_3 _ _ _ hne, hread]
  rfl

theorem readArguments_quiet {r : Reading} (hr : r.pending = none) (hquiet : r.quiet = false)
    (quiet : Bool) (rest : List String) :
    readArguments r ((if quiet then [Switch.quiet.label] else []) ++ rest) =
      readArguments {r with quiet} rest := by
  cases quiet with
  | false =>
    obtain ⟨⟩ := r
    cases hquiet
    rfl
  | true =>
    have hread : readArgument r Switch.quiet.label = .ok (.inl {r with quiet := true}) := by
      show r.switch .quiet = _
      unfold Reading.switch
      rw [Reading.settle_of_none hr]
      exact if_neg (by simp [hquiet])
    show readArguments r (Switch.quiet.label :: rest) = _
    rw [readArguments.eq_3 _ _ _ (by decide), hread]
    rfl

theorem readArguments_features {r : Reading} (hr : r.pending = none) (fs : List Feature)
    (rest : List String) :
    readArguments r ((fs.map fun f => Setting.feature.argument f.key) ++ rest) =
      readArguments {r with features := r.features ++ fs} rest := by
  induction fs generalizing r with
  | nil => simp
  | cons f fs ih =>
    have hgive : r.give .feature f.key = .ok {r with features := r.features ++ [f]} := by
      simp only [Reading.give, f.ofName?_key]
    rw [List.map_cons, List.cons_append, readArguments_setting hr hgive,
      ih (r := {r with features := r.features ++ [f]}) hr]
    simp only [List.append_assoc, List.singleton_append]

theorem readArguments_files {r : Reading} (hr : r.pending = none) {names : List String}
    (hnames : "" ∉ names) :
    readArguments r ("--" :: names) = ({r with files := r.files ++ names} : Reading).finish := by
  have hsettle : ({r with pending := some (.files names)} : Reading).settle =
      .ok {r with files := r.files ++ names} := by
    have hcontains : names.contains "" = false := by simpa using hnames
    simp only [Reading.settle, hcontains, hr]
    rfl
  rw [readArguments]
  unfold Reading.addFiles
  rw [Reading.settle_of_none hr]
  show ({r with pending := some (.files names)} : Reading).settle >>= _ = _
  rw [hsettle]
  rfl

/-- Arguments that ask for the options. -/
def Options.arguments (o : Options) : List String :=
  [Setting.cpu.argument o.config.cpu.name, Setting.charmap.argument o.charmap.name,
    Setting.localChar.argument (String.singleton o.config.localChar.char)] ++
  (o.config.features.toList.map fun f => Setting.feature.argument f.key) ++
  (if o.quiet then [Switch.quiet.label] else []) ++
  "--" :: o.files

theorem ofArguments_arguments {o : Options} (h : o.Valid) :
    Request.ofArguments o.arguments = .ok (.scan o) := by
  obtain ⟨⟨cpu, features, localChar, echo⟩, charmap, quiet, files⟩ := o
  obtain ⟨rfl, hescapes, hcharmap, hfiles, hnamed⟩ := h
  have hcpu : ({} : Reading).give .cpu cpu.name = .ok {cpu} := by
    simp only [Reading.give, cpu.ofName?_name]
    rfl
  have hgiveCharmap : ({cpu} : Reading).give .charmap charmap.name = .ok {cpu, charmap} := by
    simp only [Reading.give, Charmap.ofName?_name hcharmap]
    rfl
  have hmark : ({cpu, charmap} : Reading).give .localChar (String.singleton localChar.char) =
      .ok {cpu, charmap, localChar := localChar.char} := by
    simp only [Reading.give, String.toList_singleton]
    rfl
  have hofChar : LocalChar.ofChar? localChar.char = some localChar := by cases localChar <;> rfl
  unfold Request.ofArguments Options.arguments
  simp only [List.cons_append, List.append_assoc, List.nil_append]
  rw [readArguments_setting rfl hcpu, readArguments_setting rfl hgiveCharmap,
    readArguments_setting rfl hmark, readArguments_features rfl, readArguments_quiet rfl rfl,
    readArguments_files rfl hnamed]
  simp only [Reading.finish, Reading.settle, List.nil_append]
  show (if files.isEmpty = true then _ else _) = _
  rw [if_neg (by simpa using hfiles)]
  simp only [Option.getD_some, hofChar, foldl_toList features hescapes]

/-- **The valid options are those that arguments can ask for.** -/
theorem exists_arguments_iff {o : Options} :
    (∃ arguments, Request.ofArguments arguments = .ok (.scan o)) ↔ o.Valid :=
  ⟨fun ⟨_, h⟩ => valid_of_scan h, fun h => ⟨o.arguments, ofArguments_arguments h⟩⟩

end AsmScan.CommandLine
