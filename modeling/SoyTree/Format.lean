import SoyTree.Format.Json
import SoyTree.Format.Outline
import SoyTree.Format.Tag
import SoyTree.Format.Yaml
import SoyTree.Parse

/-! # Formats

The formats a program can be shown in, and the processing of a source into one of them.
-/

namespace SoyTree

inductive Format where
  | tag
  | outline
  | json
  | yaml
  deriving DecidableEq, Repr

namespace Format

def all : List Format := [tag, outline, json, yaml]

def name : Format → String
  | tag => "ast-tag"
  | outline => "ast-treeviz"
  | json => "ast-json"
  | yaml => "ast-yaml"

def description : Format → String
  | tag => "XML-like tags mirroring the AST"
  | outline => "Tree outline with one node per line"
  | json => "Full AST as pretty-printed JSON"
  | yaml => "Full AST as YAML"

def ofName? (name : String) : Option Format :=
  all.find? (·.name == name)

def render : Format → Program → String
  | tag, p => p.renderTag
  | outline, p => p.renderOutline
  | json, p => p.renderJson
  | yaml, p => p.renderYaml

end Format

inductive FileError where
  | notFound
  | isDirectory
  | notDirectory
  | nameTooLong
  | zeroInName
  | notText
  /-- Anything else, as the system words it. -/
  | other (detail : String)
  deriving DecidableEq, Repr

def FileError.message : FileError → String
  | notFound => "No such file or directory (os error 2)"
  | isDirectory => "Is a directory (os error 21)"
  | notDirectory => "Not a directory (os error 20)"
  | nameTooLong => "File name too long (os error 36)"
  | zeroInName => "file name contained an unexpected NUL byte"
  | notText => "stream did not contain valid UTF-8"
  | other detail => detail

inductive ProcessError where
  | file (path : String) (error : FileError)
  | parse (error : ParseError)
  | unknownFormat (name : String)
  deriving DecidableEq, Repr

def ProcessError.message : ProcessError → String
  | file path error => "IO error: " ++ path ++ ": " ++ error.message
  | parse error => "Parse error: " ++ error.message
  | unknownFormat name => "Unknown format: " ++ name

def Format.named (name : String) : Except ProcessError Format :=
  match ofName? name with
  | some format => .ok format
  | none => .error (.unknownFormat name)

def process (source : String) (format : Format) (options : Options) : Except ProcessError String :=
  match parseWith source options with
  | .ok program => .ok (format.render program)
  | .error error => .error (.parse error)

/-- Processes the outcome of reading the file at `path`. -/
def processFile (path : String) (contents : Except FileError String) (format : Format)
    (options : Options) : Except ProcessError String :=
  match contents with
  | .error error => .error (.file path error)
  | .ok source => process source format options

end SoyTree
