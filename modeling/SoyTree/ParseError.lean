import SoyTree.Grammar.Body
import SoyTree.Source.Lines
import SoyTree.Text.Quoted

/-! # Parse errors

The one error that a source is refused with, its place counted from one, and its wording.
-/

namespace SoyTree

namespace ParseError

inductive Cause where
  | unexpected (expected : List String) (found : String)
  | unterminated (command : String)
  | invalid (why : Rejection)
  | tooDeep (limit : Nat)
  deriving DecidableEq, Repr

def Cause.message : Cause → String
  | unexpected expected found =>
    "unexpected " ++ found ++
      match expected with
      | [] => ""
      | [only] => ", expected " ++ only
      | many => ", expected one of " ++ ", ".intercalate many
  | unterminated command =>
    "unterminated \x7b" ++ command ++ "\x7d: no matching \x7b/" ++ command ++
      "\x7d before end of input"
  | invalid why => why.message
  | tooDeep limit => "nesting exceeds the maximum depth of " ++ toString limit

/-- How a character, or the end of input, is named. -/
def describe : Option Char → String
  | some c => Text.quoteChar c
  | none => "end of input"

/-- Puts a text into an increasing list that does not hold it yet. -/
def insertText (x : String) : List String → List String
  | [] => [x]
  | y :: rest =>
    if x < y then x :: y :: rest else if x = y then y :: rest else y :: insertText x rest

def describeAll (tokens : List (Option Char)) : List String :=
  tokens.foldr (fun token names => insertText (describe token) names) []

/-- The command word of the tag at the start of a text, or its brace if there is none. -/
def commandAt (text : List Char) : String :=
  let word := (text.dropWhile (· == '\x7b')).takeWhile Grammar.isCommandChar
  if word.isEmpty then "\x7b" else String.ofList word

end ParseError

/-- The refusal of a source: line and column count from one, `offset` counts characters from
zero. -/
structure ParseError where
  cause : ParseError.Cause
  line : Nat
  column : Nat
  offset : Nat
  deriving DecidableEq, Repr

namespace ParseError

def locate (lines : Lines) (offset : Nat) (cause : Cause) : ParseError :=
  let p := lines.position offset
  ⟨cause, p.line + 1, p.column + 1, p.index⟩

/-- The error that a failure of the grammar amounts to. -/
def ofFailure (text : List Char) (lines : Lines) (e : Failure) : ParseError :=
  match e.reason with
  | .unclosed opener => .locate lines opener (.unterminated (commandAt (text.drop opener)))
  | .rejected why => .locate lines e.start (.invalid why)
  | .unexpected => .locate lines e.start (.unexpected (describeAll e.expected) (describe e.found))

def isUnterminated (e : ParseError) : Bool :=
  match e.cause with
  | .unterminated _ => true
  | _ => false

def message (e : ParseError) : String :=
  toString e.line ++ ":" ++ toString e.column ++ ": " ++ e.cause.message

end ParseError

end SoyTree
