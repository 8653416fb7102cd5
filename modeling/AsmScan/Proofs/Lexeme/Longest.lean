import AsmScan.Proofs.Lexeme.Apart
import Mathlib.Data.List.TakeWhile

/-! Operators by longest match.

The operators are listed here by their spellings, without a word about how they are
read. Of those that stand at the front of a text one is the longest (`Longest`), and
there is no other one (`Longest.unique`). In a text of the bytes that operators are made
of, that one is read (`exists_longest_read`): one byte ahead is enough to know it, but
for a reference to an unnamed label, which goes on as long as its signs do. -/
namespace AsmScan

/-- The operators of one byte. -/
def Operator.ones : List (UInt8 × Token) :=
  [(Byte.less, .less), (Byte.greater, .greater), (Byte.equal, .equal), (Byte.ampersand, .bitAnd),
   (Byte.pipe, .bitOr), (Byte.colon, .colon), (Byte.plus, .plus), (Byte.minus, .minus),
   (Byte.comma, .comma), (Byte.hash, .hash), (Byte.star, .times), (Byte.slash, .divide),
   (Byte.bang, .modulo), (Byte.caret, .bitXor), (Byte.tilde, .bitNot), (Byte.leftParen, .leftParen),
   (Byte.rightParen, .rightParen), (Byte.leftBracket, .leftBracket),
   (Byte.rightBracket, .rightBracket), (Byte.percent, .modulo), (Byte.dot, .dot)]

/-- The operators of two bytes. -/
def Operator.twos : List (UInt8 × UInt8 × Token) :=
  [(Byte.less, Byte.equal, .lessEqual), (Byte.less, Byte.greater, .notEqual),
   (Byte.less, Byte.less, .shiftLeft), (Byte.greater, Byte.equal, .greaterEqual),
   (Byte.greater, Byte.greater, .shiftRight), (Byte.ampersand, Byte.ampersand, .boolAnd),
   (Byte.pipe, Byte.pipe, .boolOr), (Byte.colon, Byte.colon, .scope),
   (Byte.colon, Byte.equal, .assign)]

inductive Operator where
  | one (b : UInt8) (t : Token) (listed : (b, t) ∈ Operator.ones)
  | two (b b' : UInt8) (t : Token) (listed : (b, b', t) ∈ Operator.twos)
  /-- A reference to an unnamed label, so many ahead or, if negative, back. -/
  | label (count : Int) (count_ne : count ≠ 0)

namespace Operator

/-- The sign that counts labels ahead or back. -/
def sign (count : Int) : UInt8 := if 0 < count then Byte.plus else Byte.minus

/-- The bytes that the operator is written with. -/
def text : Operator → List UInt8
  | .one b .. => [b]
  | .two b b' .. => [b, b']
  | .label count _ => Byte.colon :: List.replicate count.natAbs (sign count)

def token : Operator → Token
  | .one _ t _ => t
  | .two _ _ t _ => t
  | .label .. => .unnamedLabel

def attr : Operator → Attr
  | .label count _ => .int count
  | _ => .none

/-- The operator is the longest of those at the front of a text. -/
structure Longest (text : List UInt8) (op : Operator) : Prop where
  front : op.text <+: text
  longest : ∀ other : Operator, other.text <+: text → other.text.length ≤ op.text.length

/-! ### One spelling, one operator -/

theorem text_ne_nil (op : Operator) : op.text ≠ [] := by
  cases op <;> exact List.cons_ne_nil _ _

/-- A spelling of several signs begins with one. -/
theorem text_label (count : Int) (h : count ≠ 0) :
    (label count h).text =
      Byte.colon :: sign count :: List.replicate (count.natAbs - 1) (sign count) := by
  obtain ⟨n, hn⟩ : ∃ n, count.natAbs = n + 1 := ⟨count.natAbs - 1, by omega⟩
  rw [text, hn, List.replicate_succ]
  rfl

theorem sign_cases (count : Int) :
    0 < count ∧ sign count = Byte.plus ∨ ¬ 0 < count ∧ sign count = Byte.minus := by
  by_cases h : 0 < count
  · exact .inl ⟨h, if_pos h⟩
  · exact .inr ⟨h, if_neg h⟩

/-- A colon and a sign are no operator of two bytes. -/
theorem sign_not_two (count : Int) (t : Token) : (Byte.colon, sign count, t) ∉ twos := by
  intro h
  have htwos : ∀ o ∈ twos, o.1 = Byte.colon → o.2.1 ≠ Byte.plus ∧ o.2.1 ≠ Byte.minus := by decide
  obtain ⟨hplus, hminus⟩ := htwos _ h rfl
  rcases sign_cases count with ⟨-, hsign⟩ | ⟨-, hsign⟩
  · exact hplus hsign
  · exact hminus hsign

/-- What an operator is can be told from its spelling. -/
theorem eq_of_text {op other : Operator} (h : op.text = other.text) : op = other := by
  have hones : ∀ o ∈ ones, ∀ o' ∈ ones, o.1 = o'.1 → o = o' := by decide
  have htwos : ∀ o ∈ twos, ∀ o' ∈ twos, o.1 = o'.1 → o.2.1 = o'.2.1 → o = o' := by decide
  cases op with
  | one b t hb =>
    cases other with
    | one b' t' hb' =>
      cases hones _ hb _ hb' (List.cons.inj h).1
      rfl
    | two => cases h
    | label count hcount =>
      rw [text_label] at h
      cases h
  | two b b' t hb =>
    cases other with
    | one => cases h
    | two c c' t' hc =>
      obtain ⟨hfirst, hrest⟩ := List.cons.inj h
      cases htwos _ hb _ hc hfirst (List.cons.inj hrest).1
      rfl
    | label count hcount =>
      rw [text_label] at h
      obtain ⟨rfl, hrest⟩ := List.cons.inj h
      obtain ⟨rfl, -⟩ := List.cons.inj hrest
      exact absurd hb (sign_not_two count t)
  | label count hcount =>
    cases other with
    | one =>
      rw [text_label] at h
      cases h
    | two c c' t' hc =>
      rw [text_label] at h
      obtain ⟨rfl, hrest⟩ := List.cons.inj h
      obtain ⟨rfl, -⟩ := List.cons.inj hrest
      exact absurd hc (sign_not_two count t')
    | label count' hcount' =>
      have hlength : count.natAbs = count'.natAbs := by
        simpa [text] using congrArg List.length h
      rw [text_label, text_label] at h
      have hsign : sign count = sign count' := (List.cons.inj (List.cons.inj h).2).1
      have hne : Byte.plus ≠ Byte.minus := by decide
      obtain rfl : count = count' := by
        rcases sign_cases count with ⟨hpos, hplus⟩ | ⟨hneg, hminus⟩ <;>
          rcases sign_cases count' with ⟨hpos', hplus'⟩ | ⟨hneg', hminus'⟩
        · omega
        · exact absurd (hplus.symm.trans (hsign.trans hminus')) hne
        · exact absurd (hplus'.symm.trans (hsign.symm.trans hminus)) hne
        · omega
      rfl

/-- **There is only one longest operator.** -/
theorem Longest.unique {text : List UInt8} {op other : Operator} (h : Longest text op)
    (h' : Longest text other) : op = other := by
  have hlength := Nat.le_antisymm (h'.longest op h.front) (h.longest other h'.front)
  apply eq_of_text
  rw [List.prefix_iff_eq_take.1 h.front, List.prefix_iff_eq_take.1 h'.front, hlength]

/-! ### Which one is the longest -/

/-- An operator of one byte is the longest if no longer one begins with it and the next byte. -/
theorem longest_one {b : UInt8} {t : Token} (h : (b, t) ∈ ones) {rest : List UInt8}
    (htwo : ∀ b' t', (b, b', t') ∈ twos → rest.head? ≠ some b')
    (hlabel : b = Byte.colon → rest.head? ≠ some Byte.plus ∧ rest.head? ≠ some Byte.minus) :
    Longest (b :: rest) (one b t h) := by
  refine ⟨⟨rest, rfl⟩, fun other hother => ?_⟩
  cases other with
  | one => exact Nat.le_refl 1
  | two c c' t' hc =>
    obtain ⟨rfl, hrest⟩ := List.cons_prefix_cons.1 hother
    obtain ⟨more, rfl⟩ := hrest
    exact absurd rfl (htwo _ _ hc)
  | label count hcount =>
    rw [text_label] at hother
    obtain ⟨rfl, hrest⟩ := List.cons_prefix_cons.1 hother
    obtain ⟨hplus, hminus⟩ := hlabel rfl
    obtain ⟨more, rfl⟩ := hrest
    rcases sign_cases count with ⟨-, hsign⟩ | ⟨-, hsign⟩
    · exact absurd (congrArg some hsign) hplus
    · exact absurd (congrArg some hsign) hminus

/-- An operator of two bytes is the longest wherever it stands. -/
theorem longest_two {b b' : UInt8} {t : Token} (h : (b, b', t) ∈ twos) (rest : List UInt8) :
    Longest (b :: b' :: rest) (two b b' t h) := by
  refine ⟨⟨rest, rfl⟩, fun other hother => ?_⟩
  cases other with
  | one => exact Nat.le_succ 1
  | two => exact Nat.le_refl 2
  | label count hcount =>
    rw [text_label] at hother
    obtain ⟨rfl, hrest⟩ := List.cons_prefix_cons.1 hother
    obtain ⟨rfl, -⟩ := List.cons_prefix_cons.1 hrest
    exact absurd h (sign_not_two count t)

/-- A run of a sign is the longest of its kind. -/
theorem replicate_prefix_iff {n : Nat} {b : UInt8} {bytes : List UInt8} :
    List.replicate n b <+: bytes ↔ n ≤ (bytes.takeWhile (· == b)).length := by
  induction n generalizing bytes with
  | zero => simp
  | succ n ih =>
    cases bytes with
    | nil => simp
    | cons b' more =>
      rw [List.replicate_succ, List.cons_prefix_cons, ih, List.takeWhile_cons]
      by_cases hb : b' = b
      · simp [hb]
      · simp [hb, Ne.symm hb]

/-- A reference to an unnamed label is the longest if it has all the signs. -/
theorem longest_label {count : Int} (h : count ≠ 0) {rest : List UInt8}
    (hrun : count.natAbs = (rest.takeWhile (· == sign count)).length) :
    Longest (Byte.colon :: rest) (label count h) := by
  have hfront : (label count h).text <+: Byte.colon :: rest :=
    List.cons_prefix_cons.2 ⟨rfl, replicate_prefix_iff.2 (Nat.le_of_eq hrun)⟩
  have htwo : 2 ≤ (label count h).text.length := by
    rw [text_label]
    exact Nat.le_add_left 2 _
  refine ⟨hfront, fun other hother => ?_⟩
  cases other with
  | one => exact Nat.le_trans (Nat.le_succ 1) htwo
  | two => exact htwo
  | label count' h' =>
    have hrun' := replicate_prefix_iff.1 (List.cons_prefix_cons.1 hother).2
    have hsign : sign count' = sign count := by
      rw [text_label] at hother hfront
      obtain ⟨more, hmore⟩ := (List.cons_prefix_cons.1 hother).2
      obtain ⟨more', hmore'⟩ := (List.cons_prefix_cons.1 hfront).2
      exact (List.cons.inj (hmore.trans hmore'.symm)).1
    rw [hsign] at hrun'
    simp only [text, List.length_cons, List.length_replicate]
    omega

/-! ### The longest one is read -/

/-- What a scan makes of the operator. -/
def lexeme (op : Operator) : Lexeme :=
  { meaning := .token op.token op.attr
    size := op.text.length
    size_pos := List.length_pos_iff.2 op.text_ne_nil }

/-- How an operator of one byte begins what is read. -/
theorem ones_cases {b : UInt8} {t : Token} (h : (b, t) ∈ ones) :
    (b, t) ∈ Lexeme.signs ∨ (∃ seconds, (b, t, seconds) ∈ Lexeme.doubled) ∨
      (b = Byte.colon ∧ t = .colon) ∨ (b = Byte.percent ∧ t = .modulo) ∨
      (b = Byte.dot ∧ t = .dot) := by
  have hcases : ∀ o ∈ ones, o ∈ Lexeme.signs ∨
      (∃ d ∈ Lexeme.doubled, d.1 = o.1 ∧ d.2.1 = o.2) ∨ (o.1 = Byte.colon ∧ o.2 = .colon) ∨
      (o.1 = Byte.percent ∧ o.2 = .modulo) ∨ (o.1 = Byte.dot ∧ o.2 = .dot) := by decide
  rcases hcases _ h with hsign | ⟨d, hd, rfl, rfl⟩ | hother
  · exact .inl hsign
  · exact .inr (.inl ⟨d.2.2, hd⟩)
  · exact .inr (.inr hother)

section Read
variable {b : UInt8} {t : Token} {rest : List UInt8}

theorem exists_longest_sign (h : (b, t) ∈ Lexeme.signs) :
    ∃ op, Longest (b :: rest) op ∧ Lexeme.plain t 1 = op.lexeme := by
  have hones : ∀ o ∈ Lexeme.signs, o ∈ ones := by decide
  have htwos : ∀ o ∈ Lexeme.signs, ∀ o' ∈ twos, o'.1 ≠ o.1 := by decide
  have hcolon : ∀ o ∈ Lexeme.signs, o.1 ≠ Byte.colon := by decide
  refine ⟨one b t (hones _ h), longest_one _ ?_ ?_, rfl⟩
  · exact fun b' t' h' => absurd rfl (htwos _ h _ h')
  · exact fun hb => absurd hb (hcolon _ h)

theorem exists_longest_pair {seconds : List (UInt8 × Token)}
    (h : (b, t, seconds) ∈ Lexeme.doubled) :
    ∃ op, Longest (b :: rest) op ∧ Lexeme.pair t seconds rest = op.lexeme := by
  have hones : ∀ d ∈ Lexeme.doubled, (d.1, d.2.1) ∈ ones := by decide
  have hlisted : ∀ d ∈ Lexeme.doubled, ∀ s ∈ d.2.2, (d.1, s.1, s.2) ∈ twos := by decide
  have hfound : ∀ d ∈ Lexeme.doubled, ∀ o ∈ twos, o.1 = d.1 → d.2.2.lookup o.2.1 = some o.2.2 := by
    decide
  have hcolon : ∀ d ∈ Lexeme.doubled, d.1 ≠ Byte.colon := by decide
  unfold Lexeme.pair
  split
  next t' hsecond =>
    obtain ⟨b', hhead, hlookup⟩ := Option.bind_eq_some_iff.1 hsecond
    obtain ⟨more, rfl⟩ := List.head?_eq_some_iff.1 hhead
    obtain ⟨before, after, rfl, -⟩ := List.lookup_eq_some_iff.1 hlookup
    have htwo : (b, b', t') ∈ twos := hlisted _ h (b', t') (by simp)
    exact ⟨two b b' t' htwo, longest_two htwo more, rfl⟩
  next hsecond =>
    refine ⟨one b t (hones _ h), longest_one _ (fun b' t' h' hhead => ?_) ?_, rfl⟩
    · have hlookup : seconds.lookup b' = some t' := hfound _ h _ h' rfl
      rw [hhead, Option.bind_some, hlookup] at hsecond
      contradiction
    · exact fun hb => absurd hb (hcolon _ h)

/-- A colon and a run of signs are read as far as the run goes. -/
theorem lexeme_label {count : Int} (h : count ≠ 0) {size : Nat}
    (hsize : size = 1 + count.natAbs) (hpos : 0 < size) :
    (label count h).lexeme =
      {meaning := .token .unnamedLabel (.int count), size, size_pos := hpos} := by
  subst hsize
  simp [lexeme, text, token, attr, Nat.add_comm]

theorem exists_longest_colon :
    ∃ op, Longest (Byte.colon :: rest) op ∧ Lexeme.colon rest = op.lexeme := by
  have hcolon : (Byte.colon, Token.colon) ∈ ones := by decide
  have htwos : ∀ o ∈ twos, o.1 = Byte.colon → o.2.1 = Byte.colon ∨ o.2.1 = Byte.equal := by decide
  have hone (htwo : rest.head? ≠ some Byte.colon ∧ rest.head? ≠ some Byte.equal)
      (hlabel : rest.head? ≠ some Byte.plus ∧ rest.head? ≠ some Byte.minus) :
      Longest (Byte.colon :: rest) (one Byte.colon .colon hcolon) := by
    refine longest_one _ (fun b' t' h' hhead => ?_) fun _ => hlabel
    rcases htwos _ h' rfl with hb | hb
    · exact htwo.1 (hhead.trans (congrArg some hb))
    · exact htwo.2 (hhead.trans (congrArg some hb))
  cases rest with
  | nil => exact ⟨_, hone (by simp) (by simp), rfl⟩
  | cons b more =>
    by_cases hb : b ∈ [Byte.colon, Byte.equal, Byte.plus, Byte.minus]
    · simp only [List.mem_cons, List.not_mem_nil, or_false] at hb
      rcases hb with rfl | rfl | rfl | rfl
      · exact ⟨_, longest_two (t := .scope) (by decide) more, rfl⟩
      · exact ⟨_, longest_two (t := .assign) (by decide) more, rfl⟩
      · obtain ⟨n, hn⟩ : ∃ n, n = (more.takeWhile (· == Byte.plus)).length := ⟨_, rfl⟩
        have hcount : (1 + n : Int) ≠ 0 := by omega
        have hsign : sign (1 + n : Int) = Byte.plus := if_pos (by omega)
        refine ⟨label _ hcount, longest_label hcount ?_, ?_⟩
        · rw [hsign, List.takeWhile_cons_of_pos rfl, List.length_cons, ← hn]
          omega
        · rw [Lexeme.colon_plus, ← hn]
          exact (lexeme_label hcount (by omega) _).symm
      · obtain ⟨n, hn⟩ : ∃ n, n = (more.takeWhile (· == Byte.minus)).length := ⟨_, rfl⟩
        have hcount : (-(1 + n) : Int) ≠ 0 := by omega
        have hsign : sign (-(1 + n) : Int) = Byte.minus := if_neg (by omega)
        refine ⟨label _ hcount, longest_label hcount ?_, ?_⟩
        · rw [hsign, List.takeWhile_cons_of_pos rfl, List.length_cons, ← hn]
          omega
        · rw [Lexeme.colon_minus, ← hn]
          exact (lexeme_label hcount (by omega) _).symm
    · rw [Lexeme.colon_other hb]
      simp only [List.mem_cons, List.not_mem_nil, or_false, not_or] at hb
      exact ⟨_, hone (by simp [hb]) (by simp [hb]), rfl⟩

/-- Among the bytes of operators no byte follows a percent sign or a dot that would go on a number or
a name. -/
theorem exists_longest_lone (hb : b = Byte.percent ∧ t = .modulo ∨ b = Byte.dot ∧ t = .dot) :
    ∃ op, Longest (b :: rest) op ∧ Lexeme.plain t 1 = op.lexeme := by
  have htwos : ∀ o ∈ twos, o.1 ≠ Byte.percent ∧ o.1 ≠ Byte.dot := by decide
  rcases hb with ⟨rfl, rfl⟩ | ⟨rfl, rfl⟩
  · refine ⟨one _ _ (by decide), longest_one _ ?_ (fun h => absurd h (by decide)), rfl⟩
    exact fun b' t' h' => absurd rfl (htwos _ h').1
  · refine ⟨one _ _ (by decide), longest_one _ ?_ (fun h => absurd h (by decide)), rfl⟩
    exact fun b' t' h' => absurd rfl (htwos _ h').2

/-- **The longest operator at the front is read**, in a text of the bytes of operators. -/
theorem exists_longest_read (c : Config) (m : Charmap)
    (h : ∀ b' ∈ b :: rest, b' ∈ ones.map Prod.fst) :
    ∃ op, Longest (b :: rest) op ∧ Lexeme.read c m b rest = op.lexeme := by
  obtain ⟨hb, hrest⟩ := List.forall_mem_cons.1 h
  have hnext : ∀ b' ∈ rest.head?, b' ∈ ones.map Prod.fst := fun b' hb' =>
    hrest b' (List.mem_of_mem_head? hb')
  obtain ⟨⟨b, t⟩, hone, rfl⟩ := List.mem_map.1 hb
  rcases ones_cases hone with hsign | ⟨seconds, hpair⟩ | ⟨rfl, rfl⟩ | ⟨rfl, rfl⟩ | ⟨rfl, rfl⟩
  · rw [Lexeme.read_of_rule (.sign hsign)]
    exact exists_longest_sign hsign
  · rw [Lexeme.read_of_rule (.pair hpair)]
    exact exists_longest_pair hpair
  · rw [Lexeme.read_of_rule (.colon rfl)]
    exact exists_longest_colon
  · have hdigit : ¬ (rest.head? = some Byte.zero ∨ rest.head? = some Byte.one) := by
      rintro (hzero | hone)
      · exact absurd (hnext _ hzero) (by decide)
      · exact absurd (hnext _ hone) (by decide)
    rw [Lexeme.read_of_rule (.percent rfl), Lexeme.percent, if_neg hdigit]
    exact exists_longest_lone (.inl ⟨rfl, rfl⟩)
  · have hnames : ∀ b' ∈ ones.map Prod.fst, Byte.isNameStart b' = false :=
      List.forall_mem_map.2 (by decide)
    have hname : Lexeme.startsName rest = false := by
      cases rest with
      | nil => rfl
      | cons b' more => exact hnames b' (hnext b' rfl)
    rw [Lexeme.read_of_rule (.dotted rfl), Lexeme.dotted, if_neg (by simp [hname])]
    exact exists_longest_lone (.inr ⟨rfl, rfl⟩)

end Read

end Operator
end AsmScan
