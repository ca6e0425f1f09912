import SoyTree.Grammar.Expression
import SoyTree.Text.Alphanumeric
import SoyTree.Tree.Program

/-! # Bodies

A body is a sequence of text, interpolations, calls, bindings and control blocks that ends at the
closing tag of its command. The tags that divide a control block are read and dropped.
-/

namespace SoyTree.Grammar

open Rule

/-- Command words, none of which starts an interpolation. -/
def reservedWords : List String :=
  ["namespace", "template", "deltemplate", "call", "delcall", "param", "let", "if", "elseif",
    "else", "foreach", "ifempty", "for", "msg", "fallbackmsg", "switch", "case", "default",
    "plural", "select", "literal", "@param"]

def isCommandChar (c : Char) : Bool :=
  Text.isAlphanumeric c || c == '_' || c == '@'

/-- Whether a tag with this content is a closing tag or starts with a command word. -/
def isCommand (content : List Char) : Bool :=
  let content := Text.trimStart content
  content.head? == some '/' ||
    reservedWords.contains (String.ofList (content.takeWhile isCommandChar))

def textRun : Rule Node :=
  marked (fun mark text => .text mark (String.ofList text)) (run1 (.noneOf ['\x7b']))

/-- A tag that is no command. -/
def interpolation : Rule Node :=
  marked (fun mark raw => .interpolation mark (String.ofList raw))
    (check
      (do
        char '\x7b'
        rawThrough (char '\x7d'))
      fun raw =>
        if isCommand raw then .error (.unexpectedTag (String.ofList (Text.trim raw))) else .ok raw)

/-- A name, an equals sign and a value in double quotes, which is taken as it stands. -/
def attributePair : Rule Attribute :=
  marked (fun mark (name, value) => ⟨mark, String.ofList name, String.ofList value⟩) do
    let name ← run1 (.satisfying fun c => c.isAlphanum || c == '_' || c == '-')
    char '='
    char '"'
    let value ← rawThrough (char '"')
    pure (name, value)

def attributes : Rule (List Attribute) :=
  many do
    blanks1
    attributePair

/-- Items up to and including the closing tag of `name`; tags of the `interior` commands are
dropped. -/
def bodyContent (name : String) (interior : List String) (item : Rule Node) : Rule (List Node) := do
  let nodes ← many (either
    (do openTag interior; pure none)
    (do let node ← item; pure (some node)))
  closeTag name
  pure (nodes.filterMap id)

/-- What follows the name in a binding of the command `word`: an expression, or attributes and a
body. -/
def bindingValue (word : String) (item : Rule Node) : Rule Value :=
  either
    (do
      blanks
      char ':'
      blanks
      let e ← expression slashClose
      slashClose
      pure (.inline e))
    (do
      let _ ← attributes
      blanks
      char '\x7d'
      let body ← bodyContent word [] item
      pure (.block body))

/-- A parameter of a call. -/
def param (item : Rule Node) : Rule Param :=
  closed (marked (fun mark (name, value) => .mk mark name value) do
    char '\x7b'
    keyword "param"
    blanks1
    let name ← identifier
    let value ← bindingValue "param" item
    pure (name, value))

def letBinding (item : Rule Node) : Rule Node :=
  closed (marked (fun mark (name, value) => .binding mark name value) do
    char '\x7b'
    keyword "let"
    blanks1
    char '$'
    let name ← identifier
    let value ← bindingValue "let" item
    pure (name, value))

/-- The parameters of a call and its closing tag. -/
def callParams (word : String) (item : Rule Node) : Rule (List Param) := do
  char '\x7d'
  let params ← many do
    blanks
    param item
  blanks
  closeTag word
  pure params

/-- A call, closed at once or with parameters. Plain calls are resolved against `home`. -/
def call (home : List String) (delegate : Bool) (item : Rule Node) : Rule Node :=
  let word := if delegate then "delcall" else "call"
  closed (marked
    (fun mark (name, params) =>
      .call mark (if delegate then name else Path.resolve name home) delegate params)
    do
      char '\x7b'
      keyword word
      blanks1
      let name ← templateName
      let _ ← upTo (ahead (either (text "/\x7d") (char '\x7d')))
      let params ← either (do text "/\x7d"; pure []) (callParams word item)
      pure (name, params))

def controlBlock (block : Control) (item : Rule Node) : Rule Node :=
  closed (marked (fun mark body => .control mark block body) do
    openTag [block.word]
    bodyContent block.word block.interior item)

/-- A literal block, whose content is one text. -/
def literal : Rule Node :=
  closed (marked
    (fun mark (content : Mark × List Char) =>
      .control mark .literal
        (if content.2.isEmpty then [] else [.text content.1 (String.ofList content.2)]))
    do
      char '\x7b'
      keyword "literal"
      blanks
      char '\x7d'
      let content ← marked Prod.mk (rawUntil (closeTag "literal"))
      closeTag "literal"
      pure content)

/-- One part of a body in a file with the namespace `home`. -/
def bodyItem (home : List String) : Rule Node :=
  recursive fun item =>
    choice [textRun, call home false item, call home true item, letBinding item,
      controlBlock .cond item, controlBlock .foreach item, controlBlock .loop item,
      controlBlock .message item, controlBlock .switch item, controlBlock .plural item,
      controlBlock .select item, literal, interpolation]

end SoyTree.Grammar
