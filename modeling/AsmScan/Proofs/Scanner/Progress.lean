import AsmScan.Proofs.Scanner.Call
import AsmScan.Scanner.Session

/-! How long a scan takes.

The size of a scanner is what its sources hold: their unread bytes, and one for each
source. A step that finds nothing takes some of it away, so a call of `next` takes no
more steps than that, and one (`exists_finds_scan`). A token takes some of it away as
well, and no operation but entering a source adds to it (`size_perform_le`). So a caller
that enters nothing comes to the end of input, before he has called `next` as often as the
size and once more (`next_progresses`). The last source is never left by a scan, which
saves a call (`next_eof_of_size_le_one`). -/
namespace AsmScan

/-- Whether the operation goes on in a source of its own. -/
def Operation.enters : Operation → Bool
  | .enterFile _ | .enterBytes .. => true
  | _ => false

namespace Scanner

/-! ### The size of what is read -/

/-- The bytes that the sources have left. -/
def unreadCount (s : Scanner) : Nat := (s.input.frames.flatMap Frame.unread).length

/-- The bytes that the sources have left, and one for each source. -/
def size (s : Scanner) : Nat := s.unreadCount + s.depth

theorem size_eq_remaining (s : Scanner) : s.size = s.input.remaining := by
  obtain ⟨⟨frames, last⟩, _⟩ := s
  simp only [size, unreadCount, depth, InputStack.depth, InputStack.remaining]
  induction frames with
  | nil => rfl
  | cons f below ih =>
    simp only [List.flatMap_cons, List.length_append, List.length_cons, List.foldr_cons]
    omega

theorem size_eq_of_input {s t : Scanner} (h : t.input = s.input) : t.size = s.size := by
  rw [size_eq_remaining, size_eq_remaining, h]

theorem size_step_onward {s t : Scanner} {spaced after : Bool}
    (h : s.step spaced = .onward after t) : t.size < s.size := by
  rw [size_eq_remaining, size_eq_remaining]
  exact step_onward_lt h

theorem size_step_found {s t : Scanner} {spaced : Bool} (h : s.step spaced = .found t) :
    t.size ≤ s.size := by
  rw [size_eq_remaining, size_eq_remaining]
  rcases s.remaining_step spaced with hlt | ⟨u, hu, -, heq⟩
  · rw [h] at hlt
    exact Nat.le_of_lt hlt
  · rw [h] at hu
    cases hu
    exact Nat.le_of_eq heq

/-! ### The steps of a call -/

/-- So many steps are taken until a token is found. -/
inductive Finds : Scanner → Bool → Nat → Scanner → Prop where
  | found {s t : Scanner} {spaced : Bool} : s.step spaced = .found t → Finds s spaced 1 t
  | onward {s t u : Scanner} {spaced after : Bool} {steps : Nat} :
      s.step spaced = .onward after t → Finds t after steps u → Finds s spaced (steps + 1) u

/-- A scan takes no more steps than there are bytes and sources, and one. -/
theorem exists_finds_scan (s : Scanner) (spaced : Bool) :
    ∃ steps ≤ s.size + 1, s.Finds spaced steps (s.scan spaced) := by
  fun_induction scan s spaced with
  | case1 s spaced t hstep => exact ⟨1, Nat.le_add_left .., .found hstep⟩
  | case2 s spaced after t hstep _ ih =>
    obtain ⟨steps, hsteps, hfinds⟩ := ih
    have := size_step_onward hstep
    exact ⟨steps + 1, by omega, .onward hstep hfinds⟩

theorem size_scan_le (s : Scanner) (spaced : Bool) : (s.scan spaced).size ≤ s.size := by
  fun_induction scan s spaced with
  | case1 s spaced t hstep => exact size_step_found hstep
  | case2 s spaced after t hstep _ ih =>
    have := size_step_onward hstep
    omega

theorem size_next_lt {s : Scanner} (h : s.next.current.token ≠ .eof) : s.next.size < s.size := by
  rw [size_eq_remaining, size_eq_remaining]
  exact next_lt s h

/-- With no more than one source, and nothing unread in it, the end is found. -/
theorem next_eof_of_size_le_one {s : Scanner} (h : s.size ≤ 1) : s.next.current.token = .eof := by
  have hsize : s.unreadCount + s.input.frames.length ≤ 1 := h
  have hunread : s.input.unread = [] := by
    obtain ⟨⟨frames, last⟩, _⟩ := s
    cases frames with
    | nil => rfl
    | cons f below =>
      simp only [unreadCount, List.flatMap_cons, List.length_append, List.length_cons] at hsize
      exact List.eq_nil_of_length_eq_zero (show f.unread.length = 0 by omega)
  have hdepth : s.depth ≤ 1 := Nat.le_trans (Nat.le_add_left ..) hsize
  have hstep : ∃ t, s.step false = .found t ∧ t.current.token = .eof := by
    cases hforced : s.forcedEnd with
    | true => exact ⟨_, step_forced hforced false, rfl⟩
    | false =>
      rw [step_leave hforced hunread]
      cases hfailure : s.input.failure? with
      | some e => exact ⟨_, leaveEnded_failed false hfailure, rfl⟩
      | none => exact ⟨_, leaveEnded_last false hfailure hdepth, rfl⟩
  obtain ⟨t, ht, heof⟩ := hstep
  rw [next, scan_found ht, heof]

/-! ### The other operations -/

theorem size_leave?_le {s t : Scanner} (h : s.leave? = some t) : t.size ≤ s.size := by
  obtain ⟨⟨frames, last⟩, _⟩ := s
  cases frames with
  | nil => contradiction
  | cons f below =>
    cases h
    simp only [size, unreadCount, depth, InputStack.depth, List.flatMap_cons, List.length_append,
      List.length_cons]
    omega

theorem input_findSubkey (s : Scanner) (keys : Array (List UInt8)) :
    (s.findSubkey keys).2.input = s.input := by
  unfold findSubkey
  split <;> rfl

theorem input_addressSize (s : Scanner) : s.addressSize.2.input = s.input := by
  unfold addressSize
  cases AddressSize.ofOverride? s.current.token with
  | some size => rfl
  | none =>
    dsimp only
    split <;> exact s.input_findSubkey AddressSize.keys

/-- Only by entering a source does a scanner come to have more before it. -/
theorem size_perform_le (files : FileSystem) (s : Scanner) {o : Operation} (ho : o.enters = false) :
    (s.perform files o).2.size ≤ s.size := by
  have hsame {t : Scanner} (h : t.input = s.input) : t.size ≤ s.size :=
    Nat.le_of_eq (size_eq_of_input h)
  cases o with
  | next => exact s.size_scan_le false
  | enterFile | enterBytes => contradiction
  | leave =>
    unfold perform
    dsimp only
    split
    · exact Nat.le_refl _
    next t ht => exact size_leave?_le ht
  | findSubkey keys => exact hsame (s.input_findSubkey keys)
  | addressSize => exact hsame s.input_addressSize
  | forceEnd | toUpper | toLower | setFeature | setCpu | setLocalChar | setCharmap =>
    exact hsame rfl

/-! ### The end of input -/

/-- The replies to a list of operations. -/
def replies (files : FileSystem) (s : Scanner) : List Operation → List Reply
  | [] => []
  | o :: more => (s.perform files o).1 :: (s.perform files o).2.replies files more

/-- A caller that enters nothing comes to the end of input. -/
theorem eof_mem_replies (files : FileSystem) {s : Scanner} {operations : List Operation}
    (henter : ∀ o ∈ operations, o.enters = false) (hcount : s.size ≤ operations.count .next)
    (hsome : 0 < operations.count .next) : .found .eof ∈ s.replies files operations := by
  induction operations generalizing s with
  | nil => contradiction
  | cons o more ih =>
    have ho : o.enters = false := henter o (List.mem_cons_self ..)
    have hmore : ∀ o ∈ more, o.enters = false := fun o h => henter o (List.mem_cons_of_mem _ h)
    by_cases hnext : o = .next
    · subst hnext
      rw [List.count_cons_self] at hcount
      by_cases heof : s.next.current.token = .eof
      · rw [← heof]
        exact List.mem_cons_self ..
      · -- Something was used up, and there must have been more than a source at its end.
        have hlt := size_next_lt heof
        have hlarge : ¬ s.size ≤ 1 := fun h => heof (next_eof_of_size_le_one h)
        have hrest : .found .eof ∈ s.next.replies files more :=
          ih hmore (by omega) (by omega)
        exact List.mem_cons_of_mem _ hrest
    · rw [List.count_cons_of_ne hnext] at hcount hsome
      have hle := s.size_perform_le files ho
      exact List.mem_cons_of_mem _ (ih hmore (by omega) hsome)

/-- **Every call comes to an end, and the calls come to the end of input.** A call takes no more steps
than its sources hold bytes and sources, and one. What they hold never becomes more by a call, and
less by every token but the end of input. So that end is found by a caller that enters nothing and
calls once more often than that; with a single source, once more often than it has bytes. -/
theorem next_progresses (s : Scanner) :
    (∃ steps ≤ s.size + 1, s.Finds false steps s.next) ∧
    (s.next.current.token ≠ .eof → s.next.size < s.size) ∧
    s.next.size ≤ s.size ∧
    ∀ files operations, (∀ o ∈ operations, Operation.enters o = false) →
      (s.size + 1 ≤ operations.count .next → .found .eof ∈ s.replies files operations) ∧
      (s.depth = 1 → s.unreadCount + 1 ≤ operations.count .next →
        .found .eof ∈ s.replies files operations) := by
  refine ⟨s.exists_finds_scan false, size_next_lt, s.size_scan_le false, ?_⟩
  intro files operations henter
  constructor
  · intro hcount
    exact eof_mem_replies files henter (by omega) (by omega)
  · intro hdepth hcount
    have hsize : s.size = s.unreadCount + 1 := by rw [size, hdepth]
    exact eof_mem_replies files henter (by omega) (by omega)

/-- A colon and a stray byte. The end is found whatever is done between the calls. -/
theorem next_progresses_stray :
    let s := ofBytes {} "t.s" [Byte.colon, 0x60]
    let operations : List Operation := [.next, .toLower, .next, .addressSize, .next, .leave, .next]
    s.next.current.token ≠ .eof ∧ s.next.size < s.size ∧
      (∀ o ∈ operations, Operation.enters o = false) ∧
      s.size + 1 ≤ operations.count .next ∧ s.depth = 1 ∧
      s.unreadCount + 1 ≤ operations.count .next ∧
      .found .eof ∈ s.replies (fun _ => .error .notFound) operations := by
  intro s operations
  have hnext : s.next = _ := scan_found rfl
  have hne : s.next.current.token ≠ .eof := by
    rw [hnext]
    decide
  have henter : ∀ o ∈ operations, Operation.enters o = false := by decide
  have hcount : s.size + 1 ≤ operations.count .next := by decide
  have hsingle : s.unreadCount + 1 ≤ operations.count .next := by decide
  obtain ⟨-, hlt, -, hend⟩ := next_progresses s
  exact ⟨hne, hlt hne, henter, hcount, rfl, hsingle, (hend _ operations henter).2 rfl hsingle⟩

end Scanner
end AsmScan
