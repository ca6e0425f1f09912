import SoyTree.Format

/-! # Directories in memory

A working directory given by its files, and the reading of a path in it.
-/

namespace SoyTree

/-- The files of a directory by their names, which may lead through further directories. -/
structure Directory where
  files : List (List String × ByteArray)

namespace Directory

def partsFrom (part : List Char) : List Char → List String
  | [] => [String.ofList part.reverse]
  | c :: rest =>
    if c = '/' then String.ofList part.reverse :: partsFrom [] rest else partsFrom (c :: part) rest

def parts (path : String) : List String :=
  partsFrom [] path.toList

def ofFiles (files : List (String × ByteArray)) : Directory :=
  ⟨files.map fun (name, content) => ((parts name).filter (fun p => p != "" && p != "."), content)⟩

def file? (d : Directory) (place : List String) : Option ByteArray :=
  (d.files.find? (·.1 == place)).map (·.2)

def isDirectory (d : Directory) (place : List String) : Bool :=
  d.files.any fun (name, _) => place.isPrefixOf name && place.length < name.length

/-- What is outside the directory is not known but for the directories above. -/
def readOutside (rest : List String) : FileError :=
  if rest.all (fun p => p == "" || p == "." || p == "..") then .isDirectory else .notFound

def nameLimit : Nat := 255

def decode (content : ByteArray) : Except FileError String :=
  match String.fromUTF8? content with
  | some text => .ok text
  | none => .error .notText

/-- Follows the parts of a path from `place` on. -/
def follow (d : Directory) (place : List String) : List String → Except FileError String
  | [] => .error .isDirectory
  | part :: rest =>
    if part = "" ∨ part = "." then d.follow place rest
    else if part = ".." then
      if place.isEmpty then .error (readOutside rest) else d.follow place.dropLast rest
    else if nameLimit < part.utf8ByteSize then .error .nameTooLong
    else
      let next := place ++ [part]
      match d.file? next with
      | some content => if rest.isEmpty then decode content else .error .notDirectory
      | none => if d.isDirectory next then d.follow next rest else .error .notFound

def read (d : Directory) (path : String) : Except FileError String :=
  if path.isEmpty then .error .notFound
  else if path.contains '\x00' then .error .zeroInName
  else if path.startsWith "/" then .error (readOutside (parts path))
  else d.follow [] (parts path)

end Directory

end SoyTree
