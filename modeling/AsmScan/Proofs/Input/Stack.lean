import AsmScan.Input.Operation
import AsmScan.Proofs.Input.Frame

/-! Last in, first out.

A frame that is pushed hides those below it. Whatever is done with a stack that never
falls to the depth it had before, those below stay as they are (`exists_frames_performAll`),
so popping back to that depth restores them, and reading goes on at the byte where it
was left (`lifo`). -/
namespace AsmScan

namespace InputStack

/-! ### Moving on in the top frame -/

@[simp] theorem unread_advance (s : InputStack) (n : Nat) :
    (s.advance n).unread = s.unread.drop n := by
  obtain ⟨frames, last⟩ := s
  cases frames with
  | nil => exact List.drop_nil.symm
  | cons => rfl

theorem advance_advance (s : InputStack) (a b : Nat) :
    (s.advance a).advance b = s.advance (a + b) := by
  obtain ⟨frames, last⟩ := s
  cases frames with
  | nil => rfl
  | cons f below =>
    simp only [advance, mapTop, List.modifyHead_cons, Frame.advance_advance]

theorem frames_advance {s : InputStack} {f : Frame} {below : List Frame}
    (h : s.frames = f :: below) (n : Nat) : (s.advance n).frames = f.advance n :: below := by
  simp only [advance, mapTop, h, List.modifyHead_cons]

/-! ### What is compared -/

/-- The frame that an operation pushes where there is room for it. -/
inductive Pushes {κ : Type} (files : FileSystem) (s : InputStack) : Operation κ → Frame → Prop where
  | frame (f : Frame) : Pushes files s (.push f) f
  | file {path : String} {contents : Contents} : files path = .ok contents →
      Pushes files s (.pushFile path) (.ofFile path contents)
  | named (name : String) (bytes : List UInt8) :
      Pushes files s (.pushBytes (some name) bytes) (.ofBytes name .start bytes)
  | here (bytes : List UInt8) :
      Pushes files s (.pushBytes none bytes) (.ofBytes s.pos.name s.pos.loc bytes)

/-- Some operations after none of which the stack has fallen to a depth. -/
def StaysAbove {κ : Type} (files : FileSystem) (depth : Nat) (s : InputStack) :
    List (Operation κ) → Prop
  | [] => True
  | o :: more => depth < (s.perform files o).2.depth ∧ StaysAbove files depth (s.perform files o).2 more

instance decidableStaysAbove {κ : Type} (files : FileSystem) (depth : Nat) (s : InputStack) :
    (operations : List (Operation κ)) → Decidable (StaysAbove files depth s operations)
  | [] => inferInstanceAs (Decidable True)
  | o :: more =>
    have := decidableStaysAbove files depth (s.perform files o).2 more
    inferInstanceAs (Decidable (depth < (s.perform files o).2.depth ∧ _))

/-- Whether an operation is for looking at the byte at which the stack stands, or moving past it. -/
def Operation.reads {κ : Type} : Operation κ → Bool
  | .peek | .classify _ | .bump => true
  | _ => false

/-! ### Operations -/

section Operations
variable {κ : Type} {files : FileSystem} {s : InputStack}

theorem perform_pushes {o : Operation κ} {f : Frame} (h : Pushes files s o f)
    (hroom : s.depth < InputError.maxDepth) :
    s.perform files o = (.done, {s with frames := f :: s.frames}) := by
  have hroom : ¬ InputError.maxDepth ≤ s.depth := Nat.not_le_of_lt hroom
  have hpush (f : Frame) : s.push f = .ok {s with frames := f :: s.frames} := if_neg hroom
  cases h with
  | frame => simp only [perform, hpush, pushing]
  | file hopens => simp only [perform, pushFile, if_neg hroom, hopens, hpush, pushing]
  | named => simp only [perform, pushBytes, hpush, pushing]
  | here => simp only [perform, pushBytes, hpush, pushing]

/-- To push something puts a frame on top, or changes nothing. -/
theorem frames_pushing {pushed : Except InputError InputStack} {frames : List Frame}
    (h : ∀ t, pushed = .ok t → ∃ f, t.frames = f :: frames) (hs : s.frames = frames) :
    (s.pushing (κ := κ) pushed).2.frames = frames ∨
      ∃ f, (s.pushing (κ := κ) pushed).2.frames = f :: frames := by
  cases pushed with
  | ok t => exact .inr (h t rfl)
  | error e => exact .inl hs

theorem frames_of_push {f : Frame} {t : InputStack} (h : s.push f = .ok t) :
    t.frames = f :: s.frames := by
  unfold push at h
  split at h
  · contradiction
  · cases h
    rfl

theorem frames_of_pushBytes {name : Option String} {bytes : List UInt8} {t : InputStack}
    (h : s.pushBytes name bytes = .ok t) : ∃ f, t.frames = f :: s.frames := by
  cases name <;> exact ⟨_, frames_of_push h⟩

theorem frames_of_pushFile {path : String} {t : InputStack} (h : s.pushFile files path = .ok t) :
    ∃ f, t.frames = f :: s.frames := by
  unfold pushFile at h
  split at h
  · contradiction
  · split at h
    · contradiction
    · exact ⟨_, frames_of_push h⟩

/-- As long as a stack has more frames than some, an operation that leaves it with more than those
leaves them as they are. -/
theorem exists_frames_perform {above below : List Frame} (hs : s.frames = above ++ below)
    (hdepth : below.length < s.depth) (o : Operation κ)
    (hstays : below.length < (s.perform files o).2.depth) :
    ∃ above', (s.perform files o).2.frames = above' ++ below := by
  -- The stack is deeper than what is kept, so that only a frame above it can be popped or changed.
  obtain ⟨g, more, rfl⟩ : ∃ g more, above = g :: more := by
    refine List.exists_cons_of_ne_nil ?_
    rintro rfl
    rw [depth, hs] at hdepth
    exact Nat.lt_irrefl _ hdepth
  have hpushing {pushed : Except InputError InputStack}
      (h : ∀ t, pushed = .ok t → ∃ f, t.frames = f :: s.frames) :
      ∃ above', (s.pushing (κ := κ) pushed).2.frames = above' ++ below := by
    rcases frames_pushing (κ := κ) h rfl with h | ⟨f, h⟩
    · exact ⟨g :: more, h.trans hs⟩
    · exact ⟨f :: g :: more, by rw [h, hs]; rfl⟩
  have htop (change : Frame → Frame) : (s.mapTop change).frames = change g :: more ++ below := by
    rw [mapTop, hs]
    rfl
  cases o with
  | push => exact hpushing fun _ h => ⟨_, frames_of_push h⟩
  | pushFile => exact hpushing fun _ h => frames_of_pushFile h
  | pushBytes => exact hpushing fun _ h => frames_of_pushBytes h
  | pop =>
    refine ⟨more, ?_⟩
    simp only [perform, pop?, hs, List.cons_append]
  | clear => exact absurd hstays (Nat.not_lt_zero _)
  | bump => exact ⟨_, htop (·.advance 1)⟩
  | peek | classify | pos => exact ⟨_, hs⟩
  | takeFailure =>
    unfold perform takeFailure
    cases s.failure? with
    | none => exact ⟨_, hs⟩
    | some e => exact ⟨_, htop ({· with failure := none})⟩

/-- **What lies below is out of reach**, as long as the stack does not fall to its depth. -/
theorem exists_frames_performAll {above below : List Frame} (hs : s.frames = above ++ below)
    (hdepth : below.length < s.depth) {operations : List (Operation κ)}
    (hstays : s.StaysAbove files below.length operations) :
    ∃ above', (s.performAll files operations).frames = above' ++ below := by
  induction operations generalizing s above with
  | nil => exact ⟨above, hs⟩
  | cons o more ih =>
    obtain ⟨hfirst, hmore⟩ := hstays
    obtain ⟨above', hframes⟩ := exists_frames_perform hs hdepth o hfirst
    exact ih hframes hfirst hmore

/-! ### Popping and reading on -/

theorem frames_pop (s : InputStack) :
    (s.perform files (.pop : Operation κ)).2.frames = s.frames.tail := by
  obtain ⟨frames, last⟩ := s
  cases frames <;> rfl

theorem frames_pops (s : InputStack) (count : Nat) :
    (s.performAll files (.replicate count (.pop : Operation κ))).frames = s.frames.drop count := by
  induction count generalizing s with
  | zero => rfl
  | succ count ih =>
    show ((s.perform files .pop).2.performAll files (.replicate count .pop)).frames = _
    rw [ih, frames_pop, List.drop_tail]

theorem unread_bumps (s : InputStack) (count : Nat) :
    (s.performAll files (.replicate count (.bump : Operation κ))).unread = s.unread.drop count := by
  induction count generalizing s with
  | zero => rfl
  | succ count ih =>
    show ((s.advance 1).performAll files (.replicate count .bump)).unread = _
    rw [ih, unread_advance, List.drop_drop, Nat.add_comm]

theorem peek?_eq_head? (s : InputStack) : s.peek? = s.unread.head? := by
  obtain ⟨frames, last⟩ := s
  cases frames <;> rfl

/-- Popping every frame one by one ends where the bottom frame stood. -/
theorem pops_eq_clear (s : InputStack) :
    s.performAll files (.replicate s.depth (.pop : Operation κ)) = s.clear := by
  obtain ⟨frames, last⟩ := s
  induction frames generalizing last with
  | nil => rfl
  | cons f below ih =>
    show (InputStack.mk below f.pos).performAll files (.replicate below.length .pop) = _
    rw [show below.length = (InputStack.mk below f.pos).depth from rfl, ih, clear, clear]
    cases below with
    | nil => rfl
    | cons g more => simp only [List.getLast?_cons, Option.map_some, Option.getD_some]

end Operations

/-- **The stack is last in, first out.** Whatever is done after a frame was pushed that does not pop it,
popping back to the depth before restores the frames that were there, as they were; so what is read on
is what was left. To look at a byte or move past it never changes the depth. An empty stack stands
where the frame popped last stood, and that is the bottom frame if all are popped. -/
theorem lifo {κ : Type} (files : FileSystem) (s : InputStack) :
    (∀ (entry : Operation κ) (f : Frame) (operations : List (Operation κ)),
      s.depth < 254 → Pushes files s entry f →
      let entered := (s.perform files entry).2
      entered.StaysAbove files s.depth operations →
      let t := entered.performAll files operations
      let back := t.performAll files (.replicate (t.depth - s.depth) (.pop : Operation κ))
      (s.perform files entry).1 = .done ∧ entered.frames = f :: s.frames ∧
        back.frames = s.frames ∧
        ∀ count, (back.performAll files (.replicate count (.bump : Operation κ))).peek? =
          s.unread[count]?) ∧
    (∀ o : Operation κ, o.reads = true → (s.perform files o).2.depth = s.depth) ∧
    (∀ f, s.frames = [f] → let t := (s.perform files (.pop : Operation κ)).2
      t.frames = [] ∧ t.pos = f.pos) ∧
    (∀ f, s.frames.getLast? = some f → let t := (s.perform files (.clear : Operation κ)).2
      t = s.performAll files (.replicate s.depth (.pop : Operation κ)) ∧
        t.frames = [] ∧ t.pos = f.pos) := by
  refine ⟨?lastIn, ?reads, ?emptied, ?cleared⟩
  case lastIn =>
    intro entry f operations hroom hpushes entered hstays t back
    have hentered : s.perform files entry = _ := perform_pushes hpushes hroom
    have hframes : entered.frames = [f] ++ s.frames := congrArg (·.2.frames) hentered
    have hdepth : s.frames.length < entered.depth := by
      rw [depth, hframes]
      exact Nat.lt_succ_self _
    obtain ⟨above, habove⟩ := exists_frames_performAll hframes hdepth hstays
    have hback : back.frames = s.frames := by
      have hcount : t.depth - s.depth = above.length := by
        rw [depth, habove, List.length_append, depth, Nat.add_sub_cancel]
      rw [frames_pops, habove, hcount, List.drop_left]
    refine ⟨congrArg Prod.fst hentered, hframes, hback, fun count => ?_⟩
    have hunread : back.unread = s.unread := by rw [unread, top?, hback, unread, top?]
    rw [peek?_eq_head?, unread_bumps, hunread, List.head?_drop]
  case reads =>
    intro o ho
    cases o with
    | peek | classify => rfl
    | bump => exact List.length_modifyHead
    | push | pushFile | pushBytes | pop | clear | pos | takeFailure => contradiction
  case emptied =>
    intro f hs t
    have ht : t = ⟨[], f.pos⟩ := by simp only [t, perform, pop?, hs]
    rw [ht]
    exact ⟨rfl, rfl⟩
  case cleared =>
    intro f hf t
    refine ⟨s.pops_eq_clear.symm, rfl, ?_⟩
    show (s.clear).pos = f.pos
    simp [clear, pos, top?, hf]

/-- A directory is pushed above a text that was pushed in the middle of another, and left again once
its failure is taken. -/
theorem lifo_nested :
    let files : FileSystem := fun _ => .ok .directory
    let f : Frame := ⟨"a.s", ⟨1, 2⟩, [Byte.lowerN, Byte.lowerE], false, none⟩
    let s := ofFrame f
    let entry : Operation Unit := .pushBytes none [Byte.lowerT]
    let operations : List (Operation Unit) := [.bump, .pushFile "d", .bump, .takeFailure, .pop, .peek]
    let t := (s.perform files entry).2.performAll files operations
    let back := t.performAll files (.replicate (t.depth - s.depth) (.pop : Operation Unit))
    s.depth < 254 ∧ Pushes files s entry (.ofBytes "a.s" ⟨1, 2⟩ [Byte.lowerT]) ∧
      (s.perform files entry).2.StaysAbove files s.depth operations ∧
      back.frames = s.frames ∧
      (back.performAll files (.replicate 1 (.bump : Operation Unit))).peek? = some Byte.lowerE ∧
      (s.perform files (.bump : Operation Unit)).2.depth = s.depth ∧
      s.frames = [f] ∧ (s.perform files (.pop : Operation Unit)).2.pos = f.pos ∧
      s.frames.getLast? = some f ∧ (s.perform files (.clear : Operation Unit)).2.pos = f.pos := by
  intro files f s entry operations t back
  have hpushes : Pushes files s entry (.ofBytes "a.s" ⟨1, 2⟩ [Byte.lowerT]) := .here _
  have hstays : (s.perform files entry).2.StaysAbove files s.depth operations := by decide
  obtain ⟨hlast, hreads, hemptied, hcleared⟩ := lifo (κ := Unit) files s
  obtain ⟨-, -, hback, hon⟩ := hlast entry _ operations (by decide) hpushes hstays
  exact ⟨by decide, hpushes, hstays, hback, hon 1, hreads .bump rfl, rfl, (hemptied f rfl).2, rfl,
    (hcleared f rfl).2.2⟩

end InputStack
end AsmScan
