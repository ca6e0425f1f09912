import SoyTree.Text.Blank
import SoyTree.Text.Quoted

/-! # Text matchers

Ways to compare a text with what is expected of it, some of them regardless of its layout.
-/

namespace SoyTree

inductive TextMatch where
  | exact (text : String)
  | startsWith (start : String)
  | contains (part : String)
  /-- Equal without the blanks at both ends. -/
  | trimmed (text : String)
  /-- The lines that are not blank, each without the blanks at its ends. -/
  | lines (expected : List String)
  deriving DecidableEq, Repr

namespace TextMatch

/-- Whether a list stands somewhere inside another. -/
def isInfix (part : List Char) : List Char → Bool
  | [] => part.isEmpty
  | c :: rest => part.isPrefixOf (c :: rest) || isInfix part rest

/-- The lines of a text that are not blank, trimmed. -/
def layoutFreeLines (text : String) : List String :=
  ((Text.lines text).map Text.trimString).filter (!·.isEmpty)

def accepts : TextMatch → String → Bool
  | exact text, actual => actual == text
  | startsWith start, actual => start.toList.isPrefixOf actual.toList
  | contains part, actual => isInfix part.toList actual.toList
  | trimmed text, actual => Text.trimString actual == Text.trimString text
  | lines expected, actual => layoutFreeLines actual == expected

def describe : TextMatch → String
  | exact text => Text.quoteString text
  | startsWith start => "starting with " ++ Text.quoteString start
  | contains part => "containing " ++ Text.quoteString part
  | trimmed text => Text.quoteString (Text.trimString text) ++ " (ignoring outer whitespace)"
  | lines expected => "with lines " ++ Text.quoteList expected

end TextMatch

end SoyTree
