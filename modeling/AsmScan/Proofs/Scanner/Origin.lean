import AsmScan.Proofs.Lexeme.Within
import AsmScan.Proofs.Scanner.Ending
import AsmScan.Proofs.Scanner.Line

/-! Where positions come from.

A caller knows of each source what it was entered as, where the scan stood then, and how
many bytes were read of it since. That is its `Origin`, and a `Ledger` has the origins of
all sources, kept by what the caller does and by what the calls take, not by what the
scanner makes of it. It tells the name and the location of every source (`Agrees`): one
without a name of its own takes the name of the nearest source below it that has one, and
goes on from the location at which it was entered. So the ledger tells where each token and
each message stands (`Stands`, `Located`); and as it keeps what it has of a source for as
long as others cover that, a source goes on, once they are left, as if they had not been
there (`positions_of_traces`). -/
namespace AsmScan

/-! ### Ledgers -/

/-- What a caller knows of a source. -/
structure Origin where
  /-- The name of its own: that of a file, or one that it was entered under. -/
  name? : Option String
  /-- Where the scan stood when it was entered. -/
  entry : Position
  text : List UInt8
  /-- The bytes of it that were read. -/
  read : List UInt8
deriving DecidableEq

namespace Origin

/-- The location that was reached. With a name of its own a source is located from its first byte,
and else from where it was entered. -/
def loc (o : Origin) : Location :=
  (if o.name?.isSome then .start else o.entry.loc).past o.read

/-- The name of the nearest source that has one of its own, from the top of some sources down. If
none has, it is the name where the last of them was entered. -/
def nearestName (entered : String) : List Origin → String
  | [] => entered
  | o :: below => o.name?.getD (nearestName o.entry.name below)

/-- The name of a source that lies above others. -/
def name (o : Origin) (below : List Origin) : String :=
  o.name?.getD (nearestName o.entry.name below)

end Origin

/-- What a caller knows of the sources, the top one first. -/
structure Ledger where
  origins : List Origin
  /-- Where the source left last had come to. -/
  left : Position
deriving DecidableEq

namespace Ledger

/-- Where the scan stands. -/
def pos (l : Ledger) : Position :=
  match l.origins with
  | [] => l.left
  | o :: below => ⟨o.name below, o.loc⟩

/-- A source is entered. -/
def enter (l : Ledger) (name? : Option String) (text : List UInt8) : Ledger :=
  {l with origins := ⟨name?, l.pos, text, []⟩ :: l.origins}

/-- The top source is left, if there is one. -/
def leave (l : Ledger) : Ledger := ⟨l.origins.tail, l.pos⟩

/-- Something is taken from the sources. -/
def take (l : Ledger) : Intake → Ledger
  | .bytes taken => {l with origins := l.origins.modifyHead fun o => {o with read := o.read ++ taken}}
  | .source _ => l.leave

def takeAll (l : Ledger) (items : List Intake) : Ledger := items.foldl take l

/-- What an operation does to the sources. -/
def perform (files : FileSystem) (s : Scanner) (l : Ledger) : Operation → Ledger
  | .next => l.takeAll (s.taken false)
  | .enterFile path =>
    match files path with
    | .ok contents =>
      if s.depth < InputError.maxDepth then l.enter (some path) contents.bytes else l
    | .error _ => l
  | .enterBytes name bytes => if s.depth < InputError.maxDepth then l.enter name bytes else l
  | .leave => l.leave
  | _ => l

end Ledger

/-! ### What the ledger tells -/

/-- Sources that stand where their origins tell. -/
inductive Placed : List Frame → List Origin → Prop where
  | nil : Placed [] []
  | cons {f : Frame} {o : Origin} {frames : List Frame} {origins : List Origin} :
      f.pos = ⟨o.name origins, o.loc⟩ → o.text = o.read ++ f.unread → Placed frames origins →
      Placed (f :: frames) (o :: origins)

/-- The scanner's positions are those of the ledger. -/
structure Agrees (input : InputStack) (l : Ledger) : Prop where
  placed : Placed input.frames l.origins
  last : input.last = l.left

theorem Origin.loc_read (o : Origin) (taken : List UInt8) :
    ({o with read := o.read ++ taken} : Origin).loc = o.loc.past taken := by
  simp only [Origin.loc, Location.past_append]

theorem Ledger.pos_of_cons {l : Ledger} {o : Origin} {below : List Origin}
    (ho : l.origins = o :: below) : l.pos = ⟨o.name below, o.loc⟩ := by
  rw [Ledger.pos, ho]

/-- Within the top source, positions go on by what is read. -/
theorem Ledger.pos_take {l : Ledger} (h : l.origins ≠ []) (taken : List UInt8) :
    (l.take (.bytes taken)).pos = l.pos.past taken := by
  obtain ⟨o, below, ho⟩ := List.exists_cons_of_ne_nil h
  have htaken : (l.take (.bytes taken)).origins = {o with read := o.read ++ taken} :: below := by
    simp only [Ledger.take, ho, List.modifyHead_cons]
  rw [pos_of_cons htaken, pos_of_cons ho, Origin.loc_read]
  rfl

theorem Ledger.takeAll_append (l : Ledger) (a b : List Intake) :
    l.takeAll (a ++ b) = (l.takeAll a).takeAll b :=
  List.foldl_append

theorem Placed.length_eq {frames : List Frame} {origins : List Origin} (h : Placed frames origins) :
    frames.length = origins.length := by
  induction h with
  | nil => rfl
  | cons _ _ _ ih => rw [List.length_cons, List.length_cons, ih]

namespace Agrees
variable {input : InputStack} {l : Ledger}

theorem pos (h : Agrees input l) : input.pos = l.pos := by
  obtain ⟨frames, last⟩ := input
  obtain ⟨origins, left⟩ := l
  obtain ⟨hplaced, hlast⟩ := h
  cases hplaced with
  | nil => exact hlast
  | cons hpos => exact hpos

/-- What was read of the top source is not read again. -/
theorem text_eq (h : Agrees input l) {o : Origin} {below : List Origin}
    (ho : l.origins = o :: below) : o.text = o.read ++ input.unread := by
  obtain ⟨frames, last⟩ := input
  obtain ⟨hplaced, -⟩ := h
  rw [ho] at hplaced
  cases hplaced with
  | cons _ htext => exact htext

theorem depth_eq (h : Agrees input l) : input.depth = l.origins.length := h.placed.length_eq

/-- To enter a source. -/
theorem enter (h : Agrees input l) {f : Frame} {name? : Option String}
    (hpos : f.pos = name?.elim input.pos (⟨·, .start⟩)) :
    Agrees {input with frames := f :: input.frames} (l.enter name? f.unread) := by
  refine ⟨.cons ?_ rfl h.placed, h.last⟩
  rw [hpos, h.pos]
  obtain ⟨origins, left⟩ := l
  cases name? <;> cases origins <;> rfl

/-- To leave the top source. -/
theorem leave (h : Agrees input l) {f : Frame} {below : List Frame}
    (hs : input.frames = f :: below) : Agrees ⟨below, f.pos⟩ l.leave := by
  have hpos : input.pos = f.pos := InputStack.pos_of_frames hs
  obtain ⟨origins, left⟩ := l
  have hplaced : Placed input.frames origins := h.placed
  rw [hs] at hplaced
  cases hplaced with
  | cons _ _ hbelow => exact ⟨hbelow, hpos.symm.trans h.pos⟩

/-- To move on in the top source. -/
theorem advance (h : Agrees input l) (count : Nat) :
    Agrees (input.advance count) (l.take (.bytes (input.unread.take count))) := by
  obtain ⟨frames, last⟩ := input
  obtain ⟨origins, left⟩ := l
  obtain ⟨hplaced, hlast⟩ := h
  cases hplaced with
  | nil => exact ⟨.nil, hlast⟩
  | @cons f o _ _ hpos htext hbelow =>
    refine ⟨.cons ?_ ?_ hbelow, hlast⟩
    · show f.pos.past (f.unread.take count) = ⟨o.name _, Origin.loc _⟩
      rw [hpos, Origin.loc_read]
      rfl
    · show o.text = (o.read ++ f.unread.take count) ++ f.unread.drop count
      rw [List.append_assoc, List.take_append_drop, htext]

theorem dropFailure (h : Agrees input l) : Agrees input.dropFailure l := by
  obtain ⟨frames, last⟩ := input
  obtain ⟨origins, left⟩ := l
  obtain ⟨hplaced, hlast⟩ := h
  cases hplaced with
  | nil => exact ⟨.nil, hlast⟩
  | cons hpos htext hbelow => exact ⟨.cons hpos htext hbelow, hlast⟩

end Agrees

/-! ### Calls -/

/-- A token stands where the scan stood when the last thing was taken that is its own; the end of input
has nothing of its own. -/
def Stands (l : Ledger) (taken : List Intake) (o : Occurrence) : Prop :=
  ∃ before own, taken = before ++ own ∧ o.pos = (l.takeAll before).pos ∧
    (o.token = .eof ∧ own = [] ∨ o.token ≠ .eof ∧ ∃ item, own = [item])

/-- A message stands where the scan stood when so many bytes were taken of something. -/
def Located (l : Ledger) (taken : List Intake) (m : Message) : Prop :=
  ∃ before part rest after, taken = before ++ .bytes (part ++ rest) :: after ∧ rest ≠ [] ∧
    m.pos = (l.takeAll (before ++ [.bytes part])).pos

theorem Located.append_right {l : Ledger} {taken : List Intake} {m : Message}
    (h : Located l taken m) (more : List Intake) : Located l (taken ++ more) m := by
  obtain ⟨before, part, rest, after, rfl, hrest, hpos⟩ := h
  exact ⟨before, part, rest, after ++ more, by rw [List.append_assoc, List.cons_append], hrest, hpos⟩

theorem Located.append_left {l : Ledger} {taken more : List Intake} {m : Message}
    (h : Located (l.takeAll taken) more m) : Located l (taken ++ more) m := by
  obtain ⟨before, part, rest, after, rfl, hrest, hpos⟩ := h
  refine ⟨taken ++ before, part, rest, after, (List.append_assoc ..).symm, hrest, ?_⟩
  rw [hpos, ← Ledger.takeAll_append, List.append_assoc]

theorem Stands.append_left {l : Ledger} {taken more : List Intake} {o : Occurrence}
    (h : Stands (l.takeAll taken) more o) : Stands l (taken ++ more) o := by
  obtain ⟨before, own, rfl, hpos, hown⟩ := h
  refine ⟨taken ++ before, own, (List.append_assoc ..).symm, ?_, hown⟩
  rw [hpos, ← Ledger.takeAll_append]

namespace Scanner
variable {s t : Scanner} {l : Ledger} {spaced after : Bool}

/-- What is taken with a lexeme. -/
theorem Meets.intake_past {x : Lexeme} (h : s.Meets x) :
    s.input.intake (s.past x).input = [.bytes (s.input.unread.take x.size)] := by
  obtain ⟨first, rest, f, below, hs, -, -, hsize⟩ := h.exists_frame
  rw [InputStack.unread_of_frames hs]
  exact InputStack.intake_advance hs x.size_pos hsize

/-- Past a lexeme. -/
theorem agrees_past {x : Lexeme} (hl : s.Meets x) (h : Agrees s.input l) :
    Agrees (s.past x).input (l.takeAll (s.input.intake (s.past x).input)) := by
  rw [hl.intake_past]
  exact h.advance x.size

theorem agrees_left {f : Frame} {below : List Frame} (hend : s.AtEnd f below)
    (h : Agrees s.input l) :
    Agrees ⟨below, f.pos⟩ (l.takeAll (s.input.intake ⟨below, f.pos⟩)) := by
  rw [InputStack.intake_leave hend.frames]
  exact h.leave hend.frames

/-- What is wrong with a lexeme is located by what was read of it. -/
theorem located_past {x : Lexeme} (hl : s.Meets x) (h : Agrees s.input l) :
    ∀ m ∈ x.messages s.input.pos, Located l (s.input.intake (s.past x).input) m := by
  intro m hm
  obtain ⟨f, hf, rfl⟩ := List.mem_map.1 hm
  rw [hl.intake_past]
  obtain ⟨first, rest, g, below, hs, hg, rfl, hsize⟩ := hl.exists_frame
  have hunread : s.input.unread = first :: rest := (InputStack.unread_of_frames hs).trans hg
  have horigins : l.origins ≠ [] := by
    have hplaced := h.placed
    intro hnil
    rw [hs, hnil] at hplaced
    contradiction
  let taken := s.input.unread.take (Lexeme.read s.config s.charmap first rest).size
  have hlt := Lexeme.within_read s.config s.charmap first rest f hf
  have hlength : f.offset < taken.length := by
    rw [List.length_take, hunread, ← hg, Nat.min_eq_left hsize]
    exact hlt
  have hpart : taken.take f.offset = (first :: rest).take f.offset := by
    rw [List.take_take, hunread, Nat.min_eq_left (Nat.le_of_lt hlt)]
  refine ⟨[], taken.take f.offset, taken.drop f.offset, [], ?_, ?_, ?_⟩
  · rw [List.take_append_drop]
    rfl
  · exact List.ne_nil_of_length_pos (by rw [List.length_drop]; omega)
  · show ({s.input.pos with loc := s.input.pos.loc.right f.offset} : Position) =
      (l.take (.bytes (taken.take f.offset))).pos
    -- A message is moved to the right by bytes, which is as far as they lead if no line ends among them.
    have hfeed : Byte.lineFeed ∉ taken.take f.offset := by
      rw [hpart]
      exact Lexeme.lineFeed_notMem_take s.config s.charmap first rest hf
    rw [Ledger.pos_take horigins, ← h.pos, Position.past_eq _ hfeed, List.length_take,
      Nat.min_eq_left (Nat.le_of_lt hlength)]

theorem agrees_onward (hstep : s.step spaced = .onward after t) (h : Agrees s.input l) :
    Agrees t.input (l.takeAll (s.input.intake t.input)) := by
  cases goes_onward hstep with
  | passed hl => exact agrees_past hl h
  | resumed hend => exact agrees_left hend h

theorem agrees_found (hstep : s.step spaced = .found t) (h : Agrees s.input l) :
    Agrees t.input (l.takeAll (s.input.intake t.input)) := by
  cases goes_found hstep with
  | forced | ended =>
    rw [InputStack.intake_self]
    exact h
  | token hl | lineEnd hl => exact agrees_past hl h
  | failed =>
    show Agrees s.input.dropFailure (l.takeAll (s.input.intake s.input.dropFailure))
    rw [InputStack.intake_dropFailure]
    exact h.dropFailure
  | fileEnd hend => exact agrees_left hend h

/-- **What a call takes is all that it does to the sources**, as far as positions go. -/
theorem agrees_scan (s : Scanner) (spaced : Bool) {l : Ledger} (h : Agrees s.input l) :
    Agrees (s.scan spaced).input (l.takeAll (s.taken spaced)) := by
  fun_induction scan s spaced generalizing l with
  | case1 s spaced t hstep =>
    rw [taken_found hstep]
    exact agrees_found hstep h
  | case2 s spaced after t hstep _ ih =>
    rw [taken_onward hstep, Ledger.takeAll_append]
    exact ih (agrees_onward hstep h)

theorem stands_found (hstep : s.step spaced = .found t) (h : Agrees s.input l) :
    Stands l (s.input.intake t.input) t.current := by
  cases goes_found hstep with
  | forced | ended => exact ⟨[], [], s.input.intake_self, h.pos, .inl ⟨rfl, rfl⟩⟩
  | failed => exact ⟨[], [], s.input.intake_dropFailure, h.pos, .inl ⟨rfl, rfl⟩⟩
  | token hl htoken =>
    refine ⟨[], _, rfl, h.pos, .inr ⟨?_, _, hl.intake_past⟩⟩
    rintro rfl
    have := hl.isEnd_eq htoken
    contradiction
  | lineEnd hl => exact ⟨[], _, rfl, h.pos, .inr ⟨nofun, _, hl.intake_past⟩⟩
  | fileEnd hend =>
    exact ⟨[], _, rfl, h.pos, .inr ⟨nofun, _, InputStack.intake_leave hend.frames _⟩⟩

theorem stands_scan (s : Scanner) (spaced : Bool) {l : Ledger} (h : Agrees s.input l) :
    Stands l (s.taken spaced) (s.scan spaced).current := by
  fun_induction scan s spaced generalizing l with
  | case1 s spaced t hstep =>
    rw [taken_found hstep]
    exact stands_found hstep h
  | case2 s spaced after t hstep _ ih =>
    rw [taken_onward hstep]
    exact (ih (agrees_onward hstep h)).append_left

theorem located_onward (hstep : s.step spaced = .onward after t) (h : Agrees s.input l) :
    ∃ new, t.diagnostics = s.diagnostics.add new ∧
      ∀ m ∈ new, Located l (s.input.intake t.input) m := by
  cases goes_onward hstep with
  | passed hl => exact ⟨_, rfl, located_past hl h⟩
  | resumed => exact ⟨[], (Diagnostics.add_nil _).symm, List.forall_mem_nil _⟩

/-- A source that cannot be read on is reported where it ends. -/
theorem located_found (hstep : s.step spaced = .found t) (h : Agrees s.input l) :
    ∃ new, t.diagnostics = s.diagnostics.add new ∧
      ∀ m ∈ new, Located l (s.input.intake t.input) m ∨
        m.severity = .fatal ∧ m.pos = (l.takeAll (s.input.intake t.input)).pos := by
  cases goes_found hstep with
  | forced | ended | fileEnd => exact ⟨[], (Diagnostics.add_nil _).symm, List.forall_mem_nil _⟩
  | token hl | lineEnd hl => exact ⟨_, rfl, fun m hm => .inl (located_past hl h m hm)⟩
  | failed =>
    refine ⟨_, Diagnostics.report_eq_add .., fun m hm => .inr ?_⟩
    rw [List.mem_singleton.1 hm]
    show _ ∧ s.input.pos = (l.takeAll (s.input.intake s.input.dropFailure)).pos
    rw [InputStack.intake_dropFailure]
    exact ⟨rfl, h.pos⟩

theorem located_scan (s : Scanner) (spaced : Bool) {l : Ledger} (h : Agrees s.input l) :
    ∃ new, (s.scan spaced).diagnostics = s.diagnostics.add new ∧
      ∀ m ∈ new, Located l (s.taken spaced) m ∨
        m.severity = .fatal ∧ m.pos = (l.takeAll (s.taken spaced)).pos := by
  fun_induction scan s spaced generalizing l with
  | case1 s spaced t hstep =>
    rw [taken_found hstep]
    exact located_found hstep h
  | case2 s spaced after t hstep _ ih =>
    obtain ⟨new, hnew, hlocated⟩ := located_onward hstep h
    obtain ⟨more, hmore, hrest⟩ := ih (agrees_onward hstep h)
    rw [taken_onward hstep]
    refine ⟨new ++ more, by rw [hmore, hnew, Diagnostics.add_add], fun m hm => ?_⟩
    rcases List.mem_append.1 hm with hm | hm
    · exact .inl ((hlocated m hm).append_right _)
    · rw [Ledger.takeAll_append]
      exact (hrest m hm).imp_left Located.append_left

/-! ### Runs -/

/-- To leave a source that may not be there. -/
theorem agrees_leave (files : FileSystem) (h : Agrees s.input l) :
    Agrees (s.perform files .leave).2.input l.leave := by
  cases hs : s.input.frames with
  | nil =>
    have hpop : s.input.pop? = none := by rw [InputStack.pop?, hs]
    have hlast : s.input.last = l.pos := by
      rw [← h.pos, InputStack.pos, InputStack.top?, hs]
      rfl
    obtain ⟨origins, left⟩ := l
    have hplaced : Placed s.input.frames origins := h.placed
    simp only [perform, leave?, hpop, Option.map_none]
    refine ⟨?_, hlast⟩
    rw [hs] at hplaced ⊢
    cases hplaced with
    | nil => exact .nil
  | cons f below =>
    have hpop : s.input.pop? = some ⟨below, f.pos⟩ := by rw [InputStack.pop?, hs]
    simp only [perform, leave?, hpop, Option.map_some]
    exact h.leave hs

theorem agrees_entered {files : FileSystem} {o : Operation} {f : Frame} (henters : Enters files s o f)
    (hroom : s.depth < InputError.maxDepth) (h : Agrees s.input l) :
    Agrees (s.withFrame f).input (l.perform files s o) := by
  cases henters with
  | file hopens =>
    simp only [Ledger.perform, hopens, if_pos hroom]
    exact h.enter rfl
  | named =>
    simp only [Ledger.perform, if_pos hroom]
    exact h.enter rfl
  | here =>
    simp only [Ledger.perform, if_pos hroom]
    exact h.enter rfl

/-- A source that is refused is not in the ledger. -/
theorem perform_of_refused {files : FileSystem} {o : Operation} {e : InputError}
    (h : Refused files s o e) : l.perform files s o = l := by
  cases h with
  | tooDeep henters hdeep =>
    have hfull := Nat.not_lt_of_le hdeep
    cases o with
    | enterFile path =>
      cases hfile : files path <;> simp only [Ledger.perform, hfile, if_neg hfull]
    | enterBytes => exact if_neg hfull
    | _ => contradiction
  | unreadable _ hfile => simp only [Ledger.perform, hfile]

/-- **The ledger keeps up with every operation.** -/
theorem agrees_perform (files : FileSystem) (o : Operation) (h : Agrees s.input l) :
    Agrees (s.perform files o).2.input (l.perform files s o) := by
  by_cases hleave : o = .leave
  · subst hleave
    exact agrees_leave files h
  have hdoes := s.does_perform files o
  generalize s.perform files o = r at hdoes
  cases hdoes with
  | next => exact agrees_scan s false h
  | entered henters hroom => exact agrees_entered henters hroom h
  | refused href =>
    rw [perform_of_refused href]
    exact h
  | left => exact absurd rfl hleave
  | forced => exact h
  | kept henters hnext hinput =>
    have hkept : l.perform files s o = l := by
      cases o <;> first | rfl | contradiction
    rw [hkept, hinput]
    exact h

/-- What a scanner and its ledger are brought to, by operations that never leave fewer sources than
some number, with changes of the configuration. The files may change between two operations. -/
inductive Traces (floor : Nat) (s : Scanner) (l : Ledger) : Scanner → Ledger → Prop where
  | refl : Traces floor s l s l
  | perform {t : Scanner} {m : Ledger} (files : FileSystem) (o : Operation) :
      Traces floor s l t m → floor ≤ (t.perform files o).2.depth →
      Traces floor s l (t.perform files o).2 (m.perform files t o)
  | configure {t : Scanner} {m : Ledger} (config : Config) (charmap : Charmap) :
      Traces floor s l t m → Traces floor s l {t with config, charmap} m

/-- A scanner that was opened on a text or a file, and its ledger. -/
inductive Opens : Scanner → Ledger → Prop where
  | ofBytes (config : Config) (name : String) (bytes : List UInt8) :
      Opens (.ofBytes config name bytes) (Ledger.enter ⟨[], .nowhere⟩ (some name) bytes)
  | ofFile {files : FileSystem} {config : Config} {path : String} {contents : Contents}
      {s : Scanner} : files path = .ok contents → Scanner.ofFile files config path = .ok s →
      Opens s (Ledger.enter ⟨[], .nowhere⟩ (some path) contents.bytes)

theorem agrees_opens (h : Opens s l) : Agrees s.input l := by
  have hempty : Agrees .empty ⟨[], .nowhere⟩ := ⟨.nil, rfl⟩
  cases h with
  | ofBytes config name bytes => exact hempty.enter (f := .ofBytes name .start bytes) rfl
  | @ofFile files config path contents s hfile hopen =>
    rw [ofFile_eq hfile] at hopen
    cases hopen
    exact hempty.enter (f := .ofFile path contents) rfl

theorem agrees_traces {floor : Nat} {m : Ledger} (h : Traces floor s l t m) (hs : Agrees s.input l) :
    Agrees t.input m := by
  induction h with
  | refl => exact hs
  | perform files o _ _ ih => exact agrees_perform files o ih
  | configure _ _ _ ih => exact ih

end Scanner

/-! ### Sources that others cover -/

/-- A source lies above some others, perhaps under more, and perhaps more of it was read. -/
def Ledger.Covers (o : Origin) (below : List Origin) (l : Ledger) : Prop :=
  ∃ above more, l.origins = above ++ {o with read := o.read ++ more} :: below

namespace Ledger
variable {l : Ledger} {o : Origin} {below : List Origin}

theorem length_take_le (l : Ledger) (i : Intake) : (l.take i).origins.length ≤ l.origins.length := by
  cases i with
  | bytes => exact Nat.le_of_eq List.length_modifyHead
  | source =>
    show l.origins.tail.length ≤ _
    rw [List.length_tail]
    exact Nat.sub_le ..

theorem length_takeAll_le (l : Ledger) (items : List Intake) :
    (l.takeAll items).origins.length ≤ l.origins.length := by
  induction items generalizing l with
  | nil => exact Nat.le_refl _
  | cons i more ih => exact Nat.le_trans (ih _) (l.length_take_le i)

theorem Covers.leave (h : Covers o below l) (hlength : below.length < l.leave.origins.length) :
    Covers o below l.leave := by
  obtain ⟨above, more, ho⟩ := h
  have hleave : l.leave.origins = l.origins.tail := rfl
  rw [hleave, ho] at hlength
  cases above with
  | nil => exact absurd hlength (Nat.lt_irrefl _)
  | cons a above => exact ⟨above, more, by rw [hleave, ho]; rfl⟩

theorem Covers.take (h : Covers o below l) (i : Intake)
    (hlength : below.length < (l.take i).origins.length) : Covers o below (l.take i) := by
  cases i with
  | source f => exact h.leave hlength
  | bytes taken =>
    obtain ⟨above, more, ho⟩ := h
    cases above with
    | nil => exact ⟨[], more ++ taken, by simp [Ledger.take, ho]⟩
    | cons a above => exact ⟨_ :: above, more, by simp only [Ledger.take, ho]; rfl⟩

theorem Covers.takeAll (h : Covers o below l) (items : List Intake)
    (hlength : below.length < (l.takeAll items).origins.length) :
    Covers o below (l.takeAll items) := by
  induction items generalizing l with
  | nil => exact h
  | cons i more ih =>
    exact ih (h.take i (Nat.lt_of_lt_of_le hlength ((l.take i).length_takeAll_le more))) hlength

theorem Covers.enter (h : Covers o below l) (name? : Option String) (text : List UInt8) :
    Covers o below (l.enter name? text) := by
  obtain ⟨above, more, ho⟩ := h
  exact ⟨_ :: above, more, congrArg (_ :: ·) ho⟩

theorem Covers.perform (h : Covers o below l) (files : FileSystem) (s : Scanner) (op : Operation)
    (hlength : below.length < (l.perform files s op).origins.length) :
    Covers o below (l.perform files s op) := by
  cases op with
  | next => exact h.takeAll _ hlength
  | leave => exact h.leave hlength
  | enterFile path =>
    unfold Ledger.perform
    dsimp only
    split
    · split
      · exact h.enter _ _
      · exact h
    · exact h
  | enterBytes name bytes =>
    unfold Ledger.perform
    dsimp only
    split
    · exact h.enter _ _
    · exact h
  | _ => exact h

end Ledger

namespace Scanner
variable {s t : Scanner} {l m : Ledger}

theorem agrees_covers_traces {o : Origin} {below : List Origin} (hs : Agrees s.input l)
    (ho : l.origins = o :: below) (h : Traces s.depth s l t m) :
    Agrees t.input m ∧ m.Covers o below := by
  induction h with
  | refl => exact ⟨hs, [], [], by rw [List.append_nil]; exact ho⟩
  | @perform t m files op _ hfloor ih =>
    obtain ⟨ht, hcovers⟩ := ih
    have hagrees := agrees_perform files op ht
    refine ⟨hagrees, hcovers.perform files t op ?_⟩
    have hdepth : s.depth = below.length + 1 := hs.depth_eq.trans (congrArg List.length ho)
    have hafter : (t.perform files op).2.depth = _ := hagrees.depth_eq
    omega
  | configure _ _ _ ih => exact ih

/-- A source goes on, once it is not covered any more, as if it had not been covered. -/
theorem resumes_traces (hs : Agrees s.input l) (hpos : 0 < s.depth) (h : Traces s.depth s l t m)
    (hdepth : t.depth = s.depth) :
    ∃ more, s.input.unread = more ++ t.input.unread ∧ t.input.pos = s.input.pos.past more := by
  obtain ⟨o, below, ho⟩ : ∃ o below, l.origins = o :: below :=
    List.exists_cons_of_length_pos (hs.depth_eq ▸ hpos)
  obtain ⟨ht, above, more, hm⟩ := agrees_covers_traces hs ho h
  -- At the depth it had before nothing lies above it.
  obtain rfl : above = [] := by
    have hbefore : s.depth = _ := hs.depth_eq
    have hafter : t.depth = _ := ht.depth_eq
    rw [ho] at hbefore
    rw [hm, List.length_append] at hafter
    refine List.eq_nil_of_length_eq_zero ?_
    simp only [List.length_cons] at hbefore hafter
    omega
  refine ⟨more, ?_, ?_⟩
  · have htext := ht.text_eq hm
    rw [hs.text_eq ho, List.append_assoc] at htext
    exact List.append_cancel_left htext
  · rw [ht.pos, hs.pos, Ledger.pos_of_cons hm, Ledger.pos_of_cons ho, Origin.loc_read]
    rfl

/-- **Positions are told by the ledger.** In every run, each source stands where its origin tells. A
token stands where the scan stood before its last byte was taken, and a message where it stood when
so many bytes of something were. And a source that was covered for a while goes on from where it
stood before, by what is read of it. -/
theorem positions_of_traces {s₀ : Scanner} {l₀ : Ledger} (hopens : Opens s₀ l₀)
    (h : Traces 0 s₀ l₀ s l) :
    Agrees s.input l ∧
    Stands l (s.taken false) s.next.current ∧
    (∀ m ∈ s.turn.reported, Located l (s.taken false) m ∨
      m.severity = .fatal ∧ m.pos = (l.takeAll (s.taken false)).pos) ∧
    ∀ t m, 0 < s.depth → Traces s.depth s l t m → t.depth = s.depth →
      ∃ more, s.input.unread = more ++ t.input.unread ∧ t.input.pos = s.input.pos.past more := by
  have hs := agrees_traces h (agrees_opens hopens)
  refine ⟨hs, stands_scan s false hs, ?_, fun t m => resumes_traces hs⟩
  obtain ⟨new, hnew, hlocated⟩ := located_scan s false hs
  have hreported : s.turn.reported = new := Diagnostics.since_of_eq hnew
  rw [hreported]
  exact hlocated

/-- A text is entered in the middle of another, and in that a second one, which has a name of its own.
Both are left again. -/
theorem positions_of_traces_nested :
    let files : FileSystem := fun _ => .error .notFound
    let s₀ := ofBytes {} "t.s" [Byte.colon, Byte.comma]
    let l₀ := Ledger.enter ⟨[], .nowhere⟩ (some "t.s") [Byte.colon, Byte.comma]
    let s := (s₀.perform files .next).2
    let l := l₀.perform files s₀ .next
    let t := (s.perform files (.enterBytes none [Byte.dot])).2
    let m := l.perform files s (.enterBytes none [Byte.dot])
    let u := (t.perform files (.enterBytes (some "u.s") [Byte.star])).2
    let n := m.perform files t (.enterBytes (some "u.s") [Byte.star])
    let t' := (u.perform files .leave).2
    let s' := (t'.perform files .leave).2
    Opens s₀ l₀ ∧ Traces 0 s₀ l₀ s l ∧ Traces 0 s₀ l₀ u n ∧ u.depth = 3 ∧
      t.input.pos = ⟨"t.s", ⟨1, 2⟩⟩ ∧ u.input.pos = ⟨"u.s", ⟨1, 1⟩⟩ ∧
      Stands n (u.taken false) u.next.current ∧
      ∃ more, s.input.unread = more ++ s'.input.unread ∧ s'.input.pos = s.input.pos.past more := by
  intro files s₀ l₀ s l t m u n t' s'
  have hnext : s = _ := (scan_found rfl : s₀.next = _)
  have hdepth : s.depth = 1 ∧ t.depth = 2 ∧ u.depth = 3 ∧ t'.depth = 2 ∧ s'.depth = 1 := by
    simp only [s', t', u, t, hnext]
    decide
  have hpos : t.input.pos = ⟨"t.s", ⟨1, 2⟩⟩ ∧ u.input.pos = ⟨"u.s", ⟨1, 1⟩⟩ := by
    simp only [u, t, hnext]
    decide
  obtain ⟨hs₁, ht₂, hu₃, ht₂', hs₁'⟩ := hdepth
  have hopens : Opens s₀ l₀ := .ofBytes ..
  have hs : Traces 0 s₀ l₀ s l := .perform files .next .refl (Nat.zero_le _)
  have ht : Traces 0 s₀ l₀ t m := .perform files _ hs (Nat.zero_le _)
  have hu : Traces 0 s₀ l₀ u n := .perform files _ ht (Nat.zero_le _)
  have hfirst : Traces s.depth s l t m := .perform files _ .refl (by show _ ≤ t.depth; omega)
  have hsecond : Traces s.depth s l u n := .perform files _ hfirst (by show _ ≤ u.depth; omega)
  have hleft : Traces s.depth s l t' _ := .perform files .leave hsecond (by show _ ≤ t'.depth; omega)
  have hback : Traces s.depth s l s' _ := .perform files .leave hleft (by show _ ≤ s'.depth; omega)
  obtain ⟨-, -, -, hresumes⟩ := positions_of_traces hopens hs
  obtain ⟨-, hstands, -⟩ := positions_of_traces hopens hu
  exact ⟨hopens, hs, hu, hu₃, hpos.1, hpos.2, hstands,
    hresumes _ _ (by omega) hback (hs₁'.trans hs₁.symm)⟩

end Scanner
end AsmScan
