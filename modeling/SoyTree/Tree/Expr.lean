import SoyTree.Number.Layout
import SoyTree.Source.Position

/-! # Expressions

The expression forms that are told apart, each with its mark, and their canonical text.
Everything else is kept as raw text.
-/

namespace SoyTree

/-- A string literal with its escapes resolved. -/
structure Literal where
  mark : Mark
  value : String
  deriving DecidableEq, Repr

mutual

/-- An expression with the mark of its text. -/
inductive Expr where
  | reference (mark : Mark) (name : String)
  | string (literal : Literal)
  | boolean (mark : Mark) (value : Bool)
  | number (mark : Mark) (value : Number.Binary64)
  | map (mark : Mark) (items : List MapItem)
  | call (mark : Mark) (name : String) (args : List Expr)
  | ternary (mark : Mark) (cond left right : Expr)
  | raw (mark : Mark) (text : String)
  deriving Repr

/-- One `key: value` entry of a map. -/
inductive MapItem where
  | mk (mark : Mark) (key : Literal) (value : Expr)
  deriving Repr

end

namespace MapItem

def mark : MapItem → Mark
  | mk mark _ _ => mark

def key : MapItem → Literal
  | mk _ key _ => key

def value : MapItem → Expr
  | mk _ _ value => value

end MapItem

namespace Expr

def mark : Expr → Mark
  | reference mark _ => mark
  | string literal => literal.mark
  | boolean mark _ => mark
  | number mark _ => mark
  | map mark _ => mark
  | call mark _ _ => mark
  | ternary mark _ _ _ => mark
  | raw mark _ => mark

/-- The items of a map, none for other expressions. -/
def items? : Expr → Option (List MapItem)
  | map _ items => some items
  | _ => none

/-- Escapes the quote, the backslash and line layout in a string literal. -/
def escapeChar (c : Char) : List Char :=
  if c = '\'' then ['\\', '\'']
  else if c = '\\' then ['\\', '\\']
  else if c = '\n' then ['\\', 'n']
  else if c = '\t' then ['\\', 't']
  else if c = '\r' then ['\\', 'r']
  else [c]

def quote (value : String) : String :=
  "'" ++ String.ofList (value.toList.flatMap escapeChar) ++ "'"

/-- Numbers are written without exponent, and whole numbers without point. -/
def numberLayout : Number.Layout where
  tie := .up
  exponential := fun _ => false
  whole := ""
  exponentSign := ""
  infinity := "inf"
  negativeInfinity := "-inf"

mutual

/-- The canonical text of an expression; raw text stays as it was written. -/
def toSource : Expr → String
  | reference _ name => "$" ++ name
  | string literal => quote literal.value
  | boolean _ value => if value then "true" else "false"
  | number _ value => numberLayout.write value
  | map _ items => "[" ++ ", ".intercalate (itemSources items) ++ "]"
  | call _ name args => name ++ "(" ++ ", ".intercalate (argSources args) ++ ")"
  | ternary _ cond left right =>
    cond.toSource ++ " ? " ++ left.toSource ++ " : " ++ right.toSource
  | raw _ text => text

def argSources : List Expr → List String
  | [] => []
  | e :: rest => e.toSource :: argSources rest

def itemSources : List MapItem → List String
  | [] => []
  | .mk _ key value :: rest => (quote key.value ++ ": " ++ value.toSource) :: itemSources rest

end

end Expr

/-- The value stored under the first item with this key. -/
def lookupItem (items : List MapItem) (key : String) : Option Expr :=
  (items.find? (·.key.value == key)).map (·.value)

end SoyTree
