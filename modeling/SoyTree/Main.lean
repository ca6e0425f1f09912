import SoyTree.CommandLine
import SoyTree.Files

/-! # The program

Runs a command line on the files of the working directory.
-/

open SoyTree

def fileErrorOf : IO.Error → FileError
  | .noFileOrDirectory .. => .notFound
  | .inappropriateType _ code _ => if code = 20 then .notDirectory else .isDirectory
  | error => .other (toString error)

def readText (path : String) : IO (Except FileError String) := do
  try
    let content ← IO.FS.readBinFile path
    pure (Directory.decode content)
  catch e => pure (.error (fileErrorOf e))

def main (arguments : List String) : IO UInt32 := do
  match CommandLine.read? arguments with
  | none => pure (UInt32.ofNat CommandLine.usageCode)
  | some command =>
    let outcome ← command.run readText
    IO.print outcome.output
    IO.eprint outcome.errors
    pure (UInt32.ofNat outcome.code)
