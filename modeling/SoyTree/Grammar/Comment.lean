import SoyTree.Grammar.Lexical

/-! # Comments

What may stand between declarations: blanks, line comments and block comments. In front of the
namespace tag a doc block counts as a comment as well.
-/

namespace SoyTree.Grammar

open Rule

def blankChar : Rule Unit :=
  void (one blank)

def lineComment : Rule Unit := do
  text "//"
  void (run (.noneOf ['\n']))

/-- A block comment that is no doc block; the empty comment with two stars is none either. -/
def blockComment : Rule Unit :=
  either (text "/**/") do
    text "/*"
    let _ ← one (.noneOf ['*'])
    void (upTo (text "*/"))

def anyBlockComment : Rule Unit := do
  text "/*"
  void (upTo (text "*/"))

def trivia : Rule Unit :=
  void (many (choice [blankChar, lineComment, blockComment]))

/-- Blanks and comments in front of the namespace tag. -/
def fileTrivia : Rule Unit :=
  void (many (choice [blankChar, lineComment, anyBlockComment]))

end SoyTree.Grammar
