import AsmScan.SortedTable
import Mathlib.Data.List.Chain

/-! Binary search finds what there is to find.

In a table whose keys stand in dictionary order, `narrow` never leaves the key sought
out of the stretch that it keeps, though it may turn to another place of it where the
key stands more than once (`getElem?_narrow`). So `search` tells whether the table has a
key, with a place of it if so (`answers_search`). Where no key stands twice, that is its
only place (`search_eq_some_iff`). -/
namespace AsmScan.SortedTable

/-- The keys stand in dictionary order, perhaps some of them more than once. -/
def Ordered (keys : Array (List UInt8)) : Prop := keys.toList.Pairwise (· ≤ ·)

/-- The keys stand in dictionary order, none of them twice. -/
def Sorted (keys : Array (List UInt8)) : Prop := keys.toList.Pairwise (· < ·)

-- Each key is compared with the next one only, which tells as much and takes fewer steps.
instance (keys : Array (List UInt8)) : Decidable (Sorted keys) :=
  decidable_of_iff (keys.toList.IsChain (· < ·)) List.isChain_iff_pairwise

/-- What is answered about a key: a place where it stands, if it stands anywhere. -/
structure Answers (keys : Array (List UInt8)) (key : List UInt8) (answer : Option Nat) : Prop where
  place : ∀ place ∈ answer, keys[place]? = some key
  isSome : answer.isSome = true ↔ key ∈ keys

variable {keys : Array (List UInt8)} {key : List UInt8}

theorem Sorted.ordered (h : Sorted keys) : Ordered keys := List.Pairwise.imp List.le_of_lt h

theorem Ordered.getD_le (h : Ordered keys) {i j : Nat} (hij : i ≤ j) (hj : j < keys.size) :
    keys.getD i [] ≤ keys.getD j [] := by
  rcases Nat.eq_or_lt_of_le hij with rfl | hlt
  · exact List.le_refl _
  · have hi : i < keys.size := Nat.lt_of_le_of_lt hij hj
    have := List.pairwise_iff_getElem.1 h i j hi hj hlt
    simpa [Array.getD, hi, hj] using this

theorem getD_of_getElem? {place : Nat} (h : keys[place]? = some key) : keys.getD place [] = key := by
  simp [h]

theorem getElem?_of_getD {place : Nat} (hlt : place < keys.size) (h : keys.getD place [] = key) :
    keys[place]? = some key := by
  simpa [Array.getD, hlt] using h

/-- A stretch of the table has a key. -/
def Within (keys : Array (List UInt8)) (key : List UInt8) (first size : Nat) : Prop :=
  ∃ place, first ≤ place ∧ place < first + size ∧ keys[place]? = some key

/-- The key is left over, if the stretch has it. -/
theorem getElem?_narrow (h : Ordered keys) {first size : Nat} (hsize : first + size ≤ keys.size)
    (hwithin : Within keys key first size) : keys[narrow keys key first size]? = some key := by
  fun_induction narrow keys key first size with
  | case1 first size hone =>
    obtain ⟨place, hfirst, hlast, hplace⟩ := hwithin
    obtain rfl : place = first := by omega
    exact hplace
  | case2 first size hmore middle ih =>
    obtain ⟨place, hfirst, hlast, hplace⟩ := hwithin
    have hkey : keys.getD place [] = key := getD_of_getElem? hplace
    -- The two halves overlap when the size is odd: the stretch kept has the longer one's length.
    have hmiddle : middle = first + size / 2 := rfl
    have hhalf : size / 2 ≤ size - size / 2 := by omega
    by_cases hlt : key < keys.getD middle []
    · have hbelow : ¬ middle ≤ place := by
        intro hge
        have hle := h.getD_le hge (by omega)
        rw [hkey] at hle
        exact hle hlt
      rw [dif_pos hlt] at ih
      rw [if_pos hlt]
      exact ih (by omega) ⟨place, hfirst, by omega, hplace⟩
    · rw [dif_neg hlt] at ih
      rw [if_neg hlt]
      rcases Nat.lt_or_ge place middle with hbelow | habove
      · -- The key stands before the middle and is not below it, so it stands in the middle as well.
        have hle := h.getD_le (Nat.le_of_lt hbelow) (by omega)
        rw [hkey] at hle
        have hfound : keys.getD middle [] = key := List.le_antisymm hlt hle
        exact ih (by omega)
          ⟨middle, Nat.le_refl _, by omega, getElem?_of_getD (by omega) hfound⟩
      · exact ih (by omega) ⟨place, habove, by omega, hplace⟩

/-- Whatever the order, what is found is the key. -/
theorem getElem?_of_search {place : Nat} (h : search keys key = some place) :
    keys[place]? = some key := by
  unfold search at h
  dsimp only at h
  split at h
  next hfound =>
    cases h
    exact hfound
  · contradiction

theorem isSome_search_iff (h : Ordered keys) : (search keys key).isSome = true ↔ key ∈ keys := by
  rw [Option.isSome_iff_exists, Array.mem_iff_getElem?]
  constructor
  · exact fun ⟨place, hplace⟩ => ⟨place, getElem?_of_search hplace⟩
  · rintro ⟨place, hplace⟩
    have hlt : place < keys.size := (Array.getElem?_eq_some_iff.1 hplace).1
    have hfound : keys[narrow keys key 0 keys.size]? = some key :=
      getElem?_narrow h (by omega) ⟨place, Nat.zero_le place, by omega, hplace⟩
    exact ⟨_, if_pos hfound⟩

/-- **A search tells whether the table has a key**, and where. -/
theorem answers_search (h : Ordered keys) (key : List UInt8) : Answers keys key (search keys key) :=
  ⟨fun _ => getElem?_of_search, isSome_search_iff h⟩

/-- No key has two places. -/
theorem Sorted.place_unique (h : Sorted keys) {i j : Nat} (hi : keys[i]? = some key)
    (hj : keys[j]? = some key) : i = j := by
  obtain ⟨hilt, hi⟩ := Array.getElem?_eq_some_iff.1 hi
  obtain ⟨hjlt, hj⟩ := Array.getElem?_eq_some_iff.1 hj
  have hne {i j : Nat} (hi : i < keys.size) (hj : j < keys.size) (hij : i < j)
      (heq : keys[i] = keys[j]) : False :=
    List.lt_irrefl _ (heq ▸ List.pairwise_iff_getElem.1 h i j hi hj hij)
  rcases Nat.lt_trichotomy i j with hlt | heq | hgt
  · exact (hne hilt hjlt hlt (hi.trans hj.symm)).elim
  · exact heq
  · exact (hne hjlt hilt hgt (hj.trans hi.symm)).elim

/-- A key is found at its place, and where it is not there nothing is found. -/
theorem search_eq_some_iff (h : Sorted keys) {place : Nat} :
    search keys key = some place ↔ keys[place]? = some key := by
  refine ⟨getElem?_of_search, fun hplace => ?_⟩
  have hsome : (search keys key).isSome = true :=
    (isSome_search_iff h.ordered).2 (Array.mem_of_getElem? hplace)
  obtain ⟨found, hfound⟩ := Option.isSome_iff_exists.1 hsome
  rw [hfound, h.place_unique (getElem?_of_search hfound) hplace]

end AsmScan.SortedTable
