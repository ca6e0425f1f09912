/-! # Failures

Why reading stopped, and how the failures of alternatives are weighed against each other: the one
that reached furthest counts, and failures at one place are merged.
-/

namespace SoyTree

/-- A construct that was recognised and refused. -/
inductive Rejection where
  | unexpectedCommand (word : String)
  | unexpectedTag (content : String)
  | otherWord (wanted found : String)
  | notNumber (text : String)
  | noExpression
  | keyNotString
  | questionAlone
  | notDotted (path : String)
  deriving DecidableEq, Repr

namespace Rejection

def message : Rejection → String
  | unexpectedCommand word => "unexpected command `" ++ word ++ "`"
  | unexpectedTag content => "unexpected command `\x7b" ++ content ++ "\x7d`"
  | otherWord wanted found => "expected `" ++ wanted ++ "`, found `" ++ found ++ "`"
  | notNumber text => "`" ++ text ++ "` is not a number"
  | noExpression => "expected an expression"
  | keyNotString => "map keys must be string literals"
  | questionAlone => "`?` without a matching `:` branch"
  | notDotted path => "`" ++ path ++ "` is not a dotted namespace path"

end Rejection

inductive Reason where
  | unexpected
  /-- The input ended inside the block that was opened at this offset. -/
  | unclosed (opener : Nat)
  | rejected (why : Rejection)
  deriving DecidableEq, Repr

/-- A failure to read. A missing character stands for the end of input. -/
structure Failure where
  /-- How far reading got. -/
  reach : Nat
  /-- Where the text starts that is to blame. -/
  start : Nat
  found : Option Char
  expected : List (Option Char)
  reason : Reason
  deriving DecidableEq, Repr

namespace Failure

/-- Adds what is missing from the first list, without repetition. -/
def union (a b : List (Option Char)) : List (Option Char) :=
  b.foldl (fun acc token => if token ∈ acc then acc else acc ++ [token]) a

/-- Of two reasons at one place an unclosed block counts, else the first. -/
def mergeReason : Reason → Reason → Reason
  | .unclosed opener, _ => .unclosed opener
  | _, .unclosed opener => .unclosed opener
  | reason, _ => reason

/-- Two failures at one place: the first one's place, what both expected. -/
def merge (x y : Failure) : Failure :=
  { x with expected := union x.expected y.expected, reason := mergeReason x.reason y.reason }

/-- The failure that reached further; at one place `x` with `y` merged in. -/
def max (x y : Failure) : Failure :=
  if x.reach < y.reach then y else if y.reach < x.reach then x else x.merge y

def maxHint (x : Failure) : Option Failure → Failure
  | none => x
  | some y => x.max y

/-- The further of two optional failures, `newer` taking precedence at one place. -/
def later (newer older : Option Failure) : Option Failure :=
  match newer with
  | none => older
  | some x => some (x.maxHint older)

end Failure

end SoyTree
