import AsmScan.Attr
import AsmScan.Problem
import AsmScan.Token

/-! Lexemes: the stretches that source text is cut into.

A lexeme is read off the front of the unread bytes. It has a size, so many bytes
and at least one; a meaning; and the problems found in it, each so many bytes from
its start. A lexeme with a problem inside stands on one line, so that a distance in
bytes is a distance in columns. -/
namespace AsmScan

/-- What a lexeme is to the scan. -/
inductive Meaning where
  /-- Something that is passed over and sets off the next token: a blank, a comment, a line joined
  with the next. -/
  | blank
  | lineEnd
  | token (t : Token) (attr : Attr)
  /-- Nothing; only problems came of it. -/
  | rejected
deriving DecidableEq

/-- A problem so many bytes after the start of a lexeme. -/
structure Finding where
  offset : Nat
  problem : Problem
deriving DecidableEq

structure Lexeme where
  meaning : Meaning
  size : Nat
  findings : List Finding := []
  size_pos : 0 < size := by
    first
    | exact Nat.zero_lt_one
    | exact Nat.zero_lt_two
    | exact Nat.add_pos_left Nat.zero_lt_one _
    | exact Nat.add_pos_left Nat.zero_lt_two _
    | omega
deriving DecidableEq

namespace Lexeme

/-- A blank of one byte or more. -/
def blank (size : Nat)
    (size_pos : 0 < size := by
      first
      | exact Nat.zero_lt_one
      | exact Nat.zero_lt_two
      | exact Nat.add_pos_left Nat.zero_lt_one _
      | omega) :
    Lexeme :=
  {meaning := .blank, size}

/-- A token without an attribute and without a problem. -/
def plain (t : Token) (size : Nat)
    (size_pos : 0 < size := by
      first
      | exact Nat.zero_lt_one
      | exact Nat.zero_lt_two
      | exact Nat.add_pos_left Nat.zero_lt_one _
      | omega) :
    Lexeme :=
  {meaning := .token t .none, size}

/-- A byte that begins nothing. -/
def stray (b : UInt8) : Lexeme :=
  {meaning := .rejected, size := 1, findings := [⟨0, .strayByte b⟩]}

end Lexeme

/-- The problem at the start of a lexeme, if there is one. -/
def Finding.atStartIf (condition : Bool) (problem : Problem) : List Finding :=
  if condition then [⟨0, problem⟩] else []

end AsmScan
