import SoyTree.Grammar.Lexical
import SoyTree.Text.Blank
import SoyTree.Tree.Expr

/-! # Expressions

An operand is one of the modelled forms if that form reaches up to the place where the operand
has to stop, else it is raw text up to that place. A ternary takes operands for its condition and
first branch, and any expression for its second branch. If no such reading fits, the whole
expression is raw text, unless it holds a ternary question mark.
-/

namespace SoyTree.Grammar

open Rule

/-- The end of an inline value. -/
def slashClose : Rule Unit :=
  spaced (text "/\x7d")

/-- The end of an argument or map value. -/
def nestedStop : Rule Unit :=
  spaced (one (.oneOf [',', ')', ']']))

def question : Rule Unit :=
  spaced do
    char '?'
    ahead (one (.noneOf [':', '?', '.']))

def colon : Rule Unit :=
  spaced (char ':')

def reference : Rule Expr :=
  marked .reference do
    char '$'
    identifier

/-- What an escaped character stands for. -/
def unescape (c : Char) : Char :=
  if c = 'n' then '\n' else if c = 't' then '\t' else if c = 'r' then '\r' else c

def stringChar : Rule Char :=
  either (one (.noneOf ['\\', '\''])) do
    char '\\'
    let c ← anyChar
    pure (unescape c)

def stringLiteral : Rule Literal :=
  marked (fun mark value => ⟨mark, String.ofList value⟩) do
    char '\''
    let value ← many stringChar
    char '\''
    pure value

def boolean : Rule Expr :=
  marked .boolean
    (either
      (do keyword "true"; pure true)
      (do keyword "false"; pure false))

def isNumberChar (c : Char) : Bool :=
  c.isDigit || c == '.'

/-- An optional sign, digits and points, if they make up a number. -/
def number : Rule Expr :=
  marked .number
    (check
      (do
        let sign ← maybe (one (.oneOf ['+', '-']))
        let digits ← run1 (.satisfying isNumberChar)
        pure (sign.toList ++ digits))
      fun text =>
        match Number.Binary64.read? text with
        | some value => .ok value
        | none => .error (.notNumber (String.ofList text)))

def mapItem (nested : Rule Expr) : Rule MapItem :=
  marked (fun mark (key, value) => .mk mark key value) do
    let key ← stringLiteral
    padded (char ':')
    let value ← nested
    pure (key, value)

/-- A comma list between two brackets. -/
def bracketed {α : Type} (opening closing : Char) (item : Rule α) : Rule (List α) := do
  char opening
  blanks
  let items ← sepBy item (padded (char ','))
  blanks
  char closing
  pure items

def mapLiteral (nested : Rule Expr) : Rule Expr :=
  marked .map (bracketed '[' ']' (mapItem nested))

def functionCall (nested : Rule Expr) : Rule Expr :=
  marked (fun mark (name, args) => .call mark name args) do
    let name ← identifier
    let args ← bracketed '(' ')' nested
    pure (name, args)

/-- A bracket whose first colon, comma or closing bracket is a colon: a map, but one whose keys
are no strings. -/
def looksLikeMap : List Char → Bool
  | '[' :: rest => rest.find? (fun c => c == ':' || c == ',' || c == ']') == some ':'
  | _ => false

/-- Raw text up to `stop`. Blank text and maps are refused. -/
def rawCapture (stop : Rule Unit) : Rule String :=
  check (rawUntil stop) fun text =>
    if Text.isAllBlank text then .error .noExpression
    else if looksLikeMap text then .error .keyNotString
    else .ok (String.ofList text)

def otherExpression (stop : Rule Unit) : Rule Expr :=
  marked .raw (rawCapture stop)

/-- Where a scan for question marks stands. -/
inductive QuoteState where
  | outside
  | inside
  | escaped
  deriving DecidableEq, Repr

/-- Looks for a question mark outside quotes that has no question mark before it and no colon,
question mark or point behind it. -/
def bareQuestionFrom : QuoteState → (previous : Option Char) → List Char → Bool
  | _, _, [] => false
  | .escaped, _, c :: rest => bareQuestionFrom .inside (some c) rest
  | .inside, _, c :: rest =>
    bareQuestionFrom (if c = '\\' then .escaped else if c = '\'' then .outside else .inside)
      (some c) rest
  | .outside, previous, c :: rest =>
    if c = '\'' then bareQuestionFrom .inside (some c) rest
    else if c = '?' && previous != some '?' &&
        !(rest.head? == some ':' || rest.head? == some '?' || rest.head? == some '.') then true
    else bareQuestionFrom .outside (some c) rest

/-- Whether a text holds the question mark of a ternary. -/
def hasBareQuestion (text : List Char) : Bool :=
  bareQuestionFrom .outside none text

def rawExpression (stop : Rule Unit) : Rule Expr :=
  marked .raw
    (check (rawCapture stop) fun text =>
      if hasBareQuestion text.toList then .error .questionAlone else .ok text)

/-- A modelled form that reaches up to `stop`, or raw text. -/
def operand (stop : Rule Unit) (nested : Rule Expr) : Rule Expr :=
  either
    (do
      let e ← choice [reference, marked (fun _ literal => .string literal) stringLiteral, boolean,
        mapLiteral nested, number, functionCall nested]
      ahead stop
      pure e)
    (otherExpression stop)

/-- The branches of a ternary whose second branch is read by `again`. -/
def branches (stop : Rule Unit) (nested again : Rule Expr) : Rule (Expr × Expr) := do
  question
  blanks
  let left ← operand (either colon stop) nested
  colon
  blanks
  let right ← again
  pure (left, right)

/-- An expression up to `stop`; arguments and map values are read by `nested`. -/
def expressionWith (stop : Rule Unit) (nested : Rule Expr) : Rule Expr :=
  recursive fun again =>
    either
      (do
        let e ← marked
          (fun mark (cond, rest) =>
            match rest with
            | some (left, right) => .ternary mark cond left right
            | none => cond)
          (do
            let cond ← operand (either question stop) nested
            let rest ← maybe (branches stop nested again)
            pure (cond, rest))
        ahead stop
        pure e)
      (rawExpression stop)

/-- An argument or map value. -/
def nestedExpression : Rule Expr :=
  recursive fun nested => expressionWith nestedStop nested

/-- An expression up to `stop`, which is left to be read. -/
def expression (stop : Rule Unit) : Rule Expr :=
  expressionWith stop nestedExpression

end SoyTree.Grammar
