import AsmScan.AddressSize
import AsmScan.Config
import AsmScan.Keyword
import AsmScan.Proofs.SortedTable

/-! What the tables of words hold.

The tables are in dictionary order, so a look-up finds exactly the words that a table
lists: `dotted?_eq_some_iff` for directives and operators, `isMnemonic_iff` for
instructions, `atPlace?_eq_some_iff` for the sizes of addresses. Processors and features are
found under their names, in either case (`searchAnyCase_eq_some_iff`).
`lookup_iff_listed` says it of all tables. -/
namespace AsmScan

namespace SortedTable

/-- The key of a word stands where the word does. -/
theorem getElem?_keys (words : List String) (place : Nat) :
    (keys words)[place]? = words[place]?.map utf8 := by
  simp [keys]

/-- A table of words with a value each finds the value that is listed with a word. -/
theorem lookup_eq_some_iff {α : Type} {entries : List (String × α)}
    (hsorted : Sorted (keys (entries.map Prod.fst))) {word : List UInt8} {a : α} :
    (search (keys (entries.map Prod.fst)) word).bind (fun place => entries[place]?.map Prod.snd) =
      some a ↔ ∃ w, (w, a) ∈ entries ∧ utf8 w = word := by
  have hkey (place : Nat) :
      (keys (entries.map Prod.fst))[place]? = entries[place]?.map (utf8 ·.1) := by
    rw [getElem?_keys, List.getElem?_map, Option.map_map]
    rfl
  rw [Option.bind_eq_some_iff]
  constructor
  · rintro ⟨place, hsearch, hvalue⟩
    have hfound := (search_eq_some_iff hsorted).1 hsearch
    rw [hkey] at hfound
    obtain ⟨entry, hentry, hword⟩ := Option.map_eq_some_iff.1 hfound
    obtain ⟨entry', hentry', ha⟩ := Option.map_eq_some_iff.1 hvalue
    rw [hentry] at hentry'
    cases hentry'
    exact ⟨entry.1, ha ▸ List.mem_of_getElem? hentry, hword⟩
  · rintro ⟨w, hw, hword⟩
    obtain ⟨place, hplace⟩ := List.mem_iff_getElem?.1 hw
    refine ⟨place, (search_eq_some_iff hsorted).2 ?_, ?_⟩
    · rw [hkey, hplace, Option.map_some, hword]
    · rw [hplace, Option.map_some]

/-- A table of names finds the one that a text is in either case, if no letter of theirs is small. -/
theorem searchAnyCase_eq_some_iff {α : Type} {all : List α} {name : α → String}
    (hsorted : Sorted (keys (all.map name))) (hall : ∀ a : α, ∃ place : Nat, all[place]? = some a)
    (hupper : ∀ a, (utf8 (name a)).map Byte.toUpper = utf8 (name a)) {text : String} {a : α} :
    (searchAnyCase (keys (all.map name)) text).bind (fun place => all[place]?) = some a ↔
      (utf8 text).map Byte.toUpper = (utf8 (name a)).map Byte.toUpper := by
  have hkey (place : Nat) : (keys (all.map name))[place]? = all[place]?.map (utf8 <| name ·) := by
    rw [getElem?_keys, List.getElem?_map, Option.map_map]
    rfl
  rw [Option.bind_eq_some_iff, hupper, searchAnyCase]
  constructor
  · rintro ⟨place, hsearch, hplace⟩
    have hfound := (search_eq_some_iff hsorted).1 hsearch
    rw [hkey, hplace] at hfound
    exact (Option.some.inj hfound).symm
  · intro htext
    obtain ⟨place, hplace⟩ := hall a
    refine ⟨place, (search_eq_some_iff hsorted).2 ?_, hplace⟩
    rw [hkey, hplace, htext]
    rfl

end SortedTable

namespace Keyword

theorem sorted_dottedKeys : SortedTable.Sorted dottedKeys := by
  decide +kernel

theorem getElem?_dottedKeys (place : Nat) :
    dottedKeys[place]? = dotted[place]?.map (utf8 ·.1) := by
  rw [dottedKeys, SortedTable.getElem?_keys, List.getElem?_map, Option.map_map]
  rfl

/-- A dotted word has the token that the table lists with it. -/
theorem dotted?_eq_some_iff {word : List UInt8} {t : Token} :
    dotted? word = some t ↔ ∃ w, (w, t) ∈ dotted ∧ utf8 w = word :=
  SortedTable.lookup_eq_some_iff sorted_dottedKeys

/-- Every directive is listed under its own name. -/
theorem directive_mem_dotted (d : Directive) : (d.name, Token.directive d) ∈ dotted := by
  have hall : Directive.all[d.ctorIdx]? = some d := by
    cases d <;> rfl
  have hlisted : (Directive.all.map fun d => (d.name, Token.directive d)).Sublist dotted := by
    decide +kernel
  exact hlisted.subset (List.mem_map.2 ⟨d, List.mem_of_getElem? hall, rfl⟩)

end Keyword

namespace Cpu

theorem sorted_mnemonicKeys (cpu : Cpu) : SortedTable.Sorted cpu.mnemonicKeys := by
  cases cpu <;> decide +kernel

theorem mnemonicKeys_eq (cpu : Cpu) : cpu.mnemonicKeys = SortedTable.keys cpu.mnemonics := by
  cases cpu <;> rfl

/-- The instructions have three or four letters. -/
theorem length_mnemonics (cpu : Cpu) :
    ∀ w ∈ cpu.mnemonics, 3 ≤ (utf8 w).length ∧ (utf8 w).length ≤ 4 := by
  cases cpu <;> decide +kernel

/-- A word is a mnemonic if it is listed as one. -/
theorem isMnemonic_iff (cpu : Cpu) {word : List UInt8} :
    cpu.isMnemonic word = true ↔ ∃ w ∈ cpu.mnemonics, utf8 w = word := by
  have hmem : word ∈ cpu.mnemonicKeys ↔ ∃ w ∈ cpu.mnemonics, utf8 w = word := by
    rw [mnemonicKeys_eq, SortedTable.keys, List.mem_toArray, List.mem_map]
  unfold isMnemonic
  simp only [Bool.and_eq_true, decide_eq_true_eq,
    SortedTable.isSome_search_iff cpu.sorted_mnemonicKeys.ordered, hmem]
  constructor
  · exact And.right
  · rintro ⟨w, hw, rfl⟩
    exact ⟨cpu.length_mnemonics w hw, w, hw, rfl⟩

/-- That words of another length are not searched for changes no answer. -/
theorem isMnemonic_eq_search (cpu : Cpu) (word : List UInt8) :
    cpu.isMnemonic word = (SortedTable.search cpu.mnemonicKeys word).isSome := by
  rw [Bool.eq_iff_iff, SortedTable.isSome_search_iff cpu.sorted_mnemonicKeys.ordered, isMnemonic_iff,
    mnemonicKeys_eq, SortedTable.keys, List.mem_toArray, List.mem_map]

/-- The instructions begin with a letter. -/
theorem isUpper_of_isMnemonic (cpu : Cpu) {b : UInt8} {more : List UInt8}
    (h : cpu.isMnemonic (b :: more) = true) : Byte.isUpper b = true := by
  have hletters : ∀ w ∈ cpu.mnemonics, ∀ first ∈ (utf8 w).head?, Byte.isUpper first = true := by
    cases cpu <;> decide +kernel
  obtain ⟨w, hw, hbytes⟩ := cpu.isMnemonic_iff.1 h
  exact hletters w hw b (by rw [hbytes]; rfl)

/-- The other processors have all instructions of the 6502. -/
theorem isMnemonic_of_mos6502 (cpu : Cpu) {word : List UInt8}
    (h : Cpu.mos6502.isMnemonic word = true) : cpu.isMnemonic word = true := by
  have hlisted : Cpu.mos6502.mnemonics.Sublist cpu.mnemonics := by
    cases cpu <;> decide +kernel
  obtain ⟨w, hw, hword⟩ := Cpu.mos6502.isMnemonic_iff.1 h
  exact cpu.isMnemonic_iff.2 ⟨w, hlisted.subset hw, hword⟩

/-- A processor is found under its name, in either case. -/
theorem ofName?_eq_some_iff {text : String} {cpu : Cpu} :
    Cpu.ofName? text = some cpu ↔ (utf8 text).map Byte.toUpper = (utf8 cpu.name).map Byte.toUpper := by
  have hall (cpu : Cpu) : ∃ place, Cpu.all[place]? = some cpu := ⟨cpu.ctorIdx, by cases cpu <;> rfl⟩
  have hupper (cpu : Cpu) : (utf8 cpu.name).map Byte.toUpper = utf8 cpu.name := by
    cases cpu <;> decide +kernel
  exact SortedTable.searchAnyCase_eq_some_iff (by decide +kernel) hall hupper

theorem ofName?_name (cpu : Cpu) : Cpu.ofName? cpu.name = some cpu := ofName?_eq_some_iff.2 rfl

end Cpu

namespace Feature

/-- A feature is found under its word, in either case. -/
theorem ofName?_eq_some_iff {text : String} {f : Feature} :
    Feature.ofName? text = some f ↔ (utf8 text).map Byte.toUpper = (utf8 f.key).map Byte.toUpper := by
  have hall (f : Feature) : ∃ place, Feature.all[place]? = some f := ⟨f.ctorIdx, by cases f <;> rfl⟩
  have hupper (f : Feature) : (utf8 f.key).map Byte.toUpper = utf8 f.key := by
    cases f <;> decide +kernel
  exact SortedTable.searchAnyCase_eq_some_iff (by decide +kernel) hall hupper

theorem ofName?_key (f : Feature) : Feature.ofName? f.key = some f := ofName?_eq_some_iff.2 rfl

/-- The name of a feature is its word, but for case. -/
theorem toUpper_name (f : Feature) :
    (utf8 f.name).map Byte.toUpper = (utf8 f.key).map Byte.toUpper := by
  cases f <;> decide +kernel

end Feature

/-- A word asks for the size that is listed with it. -/
theorem AddressSize.atPlace?_eq_some_iff {word : List UInt8} {size : AddressSize} :
    (SortedTable.search keys word).bind atPlace? = some size ↔
      ∃ w, (w, size) ∈ words ∧ utf8 w = word :=
  SortedTable.lookup_eq_some_iff (by decide +kernel)

/-! ### What is looked up -/

/-- The entry of a dotted word, with no other of that word. -/
structure Keyword.Lists (place : Nat) (word : List UInt8) (t : Token) : Prop where
  entry : ∃ w, dotted[place]? = some (w, t) ∧ utf8 w = word
  only : ∀ other w u, dotted[other]? = some (w, u) → utf8 w = word → other = place

/-- A dotted word has one entry, or none. -/
theorem Keyword.lists_iff {word : List UInt8} {t : Token} :
    (∃ place, Lists place word t) ↔ ∃ w, (w, t) ∈ dotted ∧ utf8 w = word := by
  have hkey {place : Nat} {w : String} {u : Token} (h : dotted[place]? = some (w, u))
      (hw : utf8 w = word) : dottedKeys[place]? = some word := by
    rw [getElem?_dottedKeys, h, Option.map_some, hw]
  constructor
  · rintro ⟨place, ⟨w, hplace, hw⟩, -⟩
    exact ⟨w, List.mem_of_getElem? hplace, hw⟩
  · rintro ⟨w, hmem, hw⟩
    obtain ⟨place, hplace⟩ := List.mem_iff_getElem?.1 hmem
    exact ⟨place, ⟨w, hplace, hw⟩, fun other w' u hother hw' =>
      sorted_dottedKeys.place_unique (hkey hother hw') (hkey hplace hw)⟩

/-- **A look-up finds what a table lists, and nothing else.** So does a search in any table whose keys
are in order. A dotted word has the token of its only entry, if it has one. A word is an instruction
if it is listed as one, whatever its length. A feature and a processor are found under their names,
in either case of each letter. -/
theorem lookup_iff_listed :
    (∀ keys key, SortedTable.Ordered keys →
      SortedTable.Answers keys key (SortedTable.search keys key)) ∧
    (∀ word t, Keyword.dotted? word = some t ↔ ∃ place, Keyword.Lists place word t) ∧
    (∀ (cpu : Cpu) word, (cpu.isMnemonic word = true ↔ word ∈ cpu.mnemonics.map utf8) ∧
      cpu.isMnemonic word = (SortedTable.search cpu.mnemonicKeys word).isSome) ∧
    (∀ text (f : Feature), Feature.ofName? text = some f ↔
      (utf8 text).map Byte.toUpper = (utf8 f.name).map Byte.toUpper) ∧
    (∀ text (cpu : Cpu), Cpu.ofName? text = some cpu ↔
      (utf8 text).map Byte.toUpper = (utf8 cpu.name).map Byte.toUpper) ∧
    (∀ f : Feature, Feature.ofName? f.name = some f) ∧
    ∀ cpu : Cpu, Cpu.ofName? cpu.name = some cpu := by
  refine ⟨fun _ key h => SortedTable.answers_search h key, ?_, ?_, ?_, fun _ _ => Cpu.ofName?_eq_some_iff,
    ?_, Cpu.ofName?_name⟩
  · intro word t
    rw [Keyword.dotted?_eq_some_iff, Keyword.lists_iff]
  · exact fun cpu word => ⟨cpu.isMnemonic_iff.trans List.mem_map.symm, cpu.isMnemonic_eq_search word⟩
  · intro text f
    rw [Feature.ofName?_eq_some_iff, Feature.toUpper_name]
  · intro f
    rw [Feature.ofName?_eq_some_iff, Feature.toUpper_name]

/-- A table in which a key stands twice. The second of the two is found. -/
theorem lookup_iff_listed_twice :
    let keys : Array (List UInt8) := #[[Byte.upperA], [Byte.upperF], [Byte.upperF], [Byte.upperX]]
    SortedTable.Ordered keys ∧ SortedTable.Answers keys [Byte.upperF] (some 2) ∧
      SortedTable.Answers keys [Byte.upperH] none := by
  intro keys
  have hordered : SortedTable.Ordered keys := by
    unfold SortedTable.Ordered
    decide
  have hanswers := lookup_iff_listed.1 keys
  have hfound : SortedTable.search keys [Byte.upperF] = some 2 := by decide +kernel
  have hmissing : SortedTable.search keys [Byte.upperH] = none := by decide +kernel
  exact ⟨hordered, hfound ▸ hanswers _ hordered, hmissing ▸ hanswers _ hordered⟩

end AsmScan
