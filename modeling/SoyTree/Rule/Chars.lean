import SoyTree.Rule.Basic

/-! # Characters

Rules for single characters, fixed texts and runs of characters of one class.
-/

namespace SoyTree

/-- A class of characters, and the characters to name where none of it is met. -/
structure CharClass where
  accepts : Char → Bool
  expected : List (Option Char)

namespace CharClass

def oneOf (chars : List Char) : CharClass :=
  ⟨chars.contains, chars.map some⟩

def noneOf (chars : List Char) : CharClass :=
  ⟨fun c => !chars.contains c, []⟩

/-- The characters that satisfy a test; none of them is named on failure. -/
def satisfying (test : Char → Bool) : CharClass :=
  ⟨test, []⟩

end CharClass

namespace Rule

def one (cls : CharClass) : Rule Char :=
  fun s =>
    match s.rest with
    | [] => .fail (unexpected s cls.expected)
    | c :: rest =>
      if cls.accepts c then .ok c ⟨s.position.next c, rest⟩ none
      else .fail (unexpected s cls.expected)

def char (c : Char) : Rule Unit :=
  void (one (.oneOf [c]))

def anyChar : Rule Char :=
  one (.satisfying fun _ => true)

/-- Fixed characters; a failure names the one that was due. -/
def chars : List Char → Rule Unit
  | [] => succeed ()
  | c :: rest => bind (char c) fun _ => chars rest

def text (t : String) : Rule Unit :=
  chars t.toList

/-- The longest run of characters of a class, possibly empty. -/
def run (cls : CharClass) : Rule (List Char) :=
  fun s =>
    let taken := s.rest.takeWhile cls.accepts
    let t := s.skip taken.length
    .ok taken t (some (unexpected t cls.expected))

def run1 (cls : CharClass) : Rule (List Char) :=
  fun s =>
    match s.rest with
    | [] => .fail (unexpected s cls.expected)
    | c :: _ => if cls.accepts c then run cls s else .fail (unexpected s cls.expected)

def endOfInput : Rule Unit :=
  fun s => if s.rest.isEmpty then .ok () s none else .fail (unexpected s [none])

end Rule

end SoyTree
