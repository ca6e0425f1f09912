import SoyTree.Format

/-! # Command line

The arguments of the program, and what it answers: a file is shown in a format, or the formats
are listed.
-/

namespace SoyTree.CommandLine

/-- What the arguments ask for. -/
inductive Command where
  | display (path : String) (format : String) (options : Options)
  | listFormats
  | version
  | help
  deriving DecidableEq, Repr

/-- Arguments seen so far. -/
structure Seen where
  path : Option String := none
  format : Option String := none
  maxDepth : Option Nat := none
  deriving DecidableEq, Repr

/-- A natural number below `2 ^ 64`, possibly with a plus sign. -/
def readNat? (text : String) : Option Nat :=
  let digits := match text.toList with
    | '+' :: rest => rest
    | all => all
  if digits.isEmpty || !digits.all Char.isDigit then none
  else (some (Number.ofDigits digits)).filter (· < Nat.pow 2 64)

inductive Setting where
  | format
  | maxDepth
  deriving DecidableEq, Repr

/-- Records a value; a setting is given at most once. -/
def Seen.set? (seen : Seen) (setting : Setting) (value : String) : Option Seen :=
  match setting with
  | .format => if seen.format.isSome then none else some { seen with format := some value }
  | .maxDepth =>
    if seen.maxDepth.isSome then none
    else (readNat? value).map fun n => { seen with maxDepth := some n }

def Seen.addPath? (seen : Seen) (path : String) : Option Seen :=
  if seen.path.isSome then none else some { seen with path := some path }

/-- What one argument means. -/
inductive Argument where
  | separator
  | path (value : String)
  /-- A setting whose value is the next argument. -/
  | setting (setting : Setting)
  | settingTo (setting : Setting) (value : String)
  | version
  | help
  | unknown
  deriving DecidableEq, Repr

def behind? (start text : String) : Option String :=
  if start.toList.isPrefixOf text.toList then some (String.ofList (text.toList.drop start.length)) else none

/-- Drops the equals sign between a letter and its value. -/
def dropEquals : List Char → String
  | '=' :: rest => String.ofList rest
  | rest => String.ofList rest

/-- Reads one argument in front of a separator. -/
def classify (argument : String) : Argument :=
  match argument.toList with
  | '-' :: '-' :: [] => .separator
  | '-' :: '-' :: _ =>
    if argument = "--format" then .setting .format
    else if argument = "--max-depth" then .setting .maxDepth
    else if argument = "--version" then .version
    else if argument = "--help" then .help
    else
      match behind? "--format=" argument, behind? "--max-depth=" argument with
      | some value, _ => .settingTo .format value
      | none, some value => .settingTo .maxDepth value
      | none, none => .unknown
  | ['-', 'f'] => .setting .format
  | '-' :: 'f' :: rest => .settingTo .format (dropEquals rest)
  | '-' :: 'V' :: _ => .version
  | '-' :: 'h' :: _ => .help
  | '-' :: _ :: _ => .unknown
  | _ => .path argument

def isValue (argument : String) : Bool :=
  match argument.toList with
  | '-' :: _ :: _ => false
  | _ => true

/-- Behind a separator only paths follow. -/
def readPaths? (seen : Seen) : List String → Option Seen
  | [] => some seen
  | path :: rest => do readPaths? (← seen.addPath? path) rest

def Seen.command? (seen : Seen) : Option Command :=
  seen.path.map fun path =>
    .display path (seen.format.getD Format.outline.name)
      ((seen.maxDepth.map (⟨·⟩)).getD {})

/-- Reads arguments in order; `none` stands for a mistake in their use. -/
def readArguments? (seen : Seen) : List String → Option Command
  | [] => seen.command?
  | argument :: rest =>
    match classify argument with
    | .separator => readPaths? seen rest >>= Seen.command?
    | .path value => do readArguments? (← seen.addPath? value) rest
    | .settingTo setting value => do readArguments? (← seen.set? setting value) rest
    | .setting setting =>
      match rest with
      | value :: rest =>
        if isValue value then do readArguments? (← seen.set? setting value) rest else none
      | [] => none
    | .version => some .version
    | .help => some .help
    | .unknown => none

def read? : List String → Option Command
  | [] => none
  | "list-formats" :: rest =>
    match rest with
    | [] | ["--"] => some .listFormats
    | ["--help"] | ["-h"] => some .help
    | _ => none
  | "help" :: topic =>
    if topic = [] ∨ topic = ["list-formats"] ∨ topic = ["help"] then some .help else none
  | arguments => readArguments? {} arguments

/-- What the program leaves behind: its exit code and what it printed. -/
structure Outcome where
  code : Nat
  output : String := ""
  errors : String := ""
  deriving DecidableEq, Repr

def usageCode : Nat := 2

def listing : String :=
  "Available output formats:\n\n" ++
    String.join (Format.all.map fun format =>
      "  " ++ format.name ++ "\n    " ++ format.description ++ "\n")

def failure (message : String) : Outcome :=
  { code := 1, errors := "Error: " ++ message ++ "\n" }

/-- Answers a command. Files are read by `read`, once the format is known to exist. -/
def Command.run {m : Type → Type} [Monad m] (read : String → m (Except FileError String)) :
    Command → m Outcome
  | display path formatName options =>
    match Format.named formatName with
    | .error error => pure (failure error.message)
    | .ok format => do
      match processFile path (← read path) format options with
      | .ok text => pure { code := 0, output := text }
      | .error error => pure (failure (path ++ ": " ++ error.message))
  | listFormats => pure { code := 0, output := listing }
  | version => pure { code := 0, output := "soyparse 0.1.0\n" }
  | help => pure { code := 0 }

end SoyTree.CommandLine
