import SoyTree.Rule.Failure
import SoyTree.Source.Position

/-! # Rules

A rule reads a value from the front of the input or fails. A success also tells the furthest
failure met on the way, which may later explain why reading stopped.
-/

namespace SoyTree

/-- What is left of the input, and where it starts. -/
structure Cursor where
  position : Position
  rest : List Char
  deriving DecidableEq, Repr

namespace Cursor

def ofChars (text : List Char) : Cursor :=
  ⟨.origin, text⟩

def offset (s : Cursor) : Nat :=
  s.position.index

/-- The offset at which the input ends. -/
def finish (s : Cursor) : Nat :=
  s.offset + s.rest.length

/-- The cursor behind the first `n` characters. -/
def skip (s : Cursor) (n : Nat) : Cursor :=
  ⟨s.position.after (s.rest.take n), s.rest.drop n⟩

end Cursor

/-- The outcome of a rule. -/
inductive Reply (α : Type) where
  | ok (value : α) (next : Cursor) (hint : Option Failure)
  | fail (failure : Failure)
  deriving Repr

def Rule (α : Type) : Type :=
  Cursor → Reply α

namespace Rule

variable {α β : Type}

/-- The failure of meeting the next character where one of `expected` was wanted. -/
def unexpected (s : Cursor) (expected : List (Option Char)) : Failure :=
  ⟨s.offset, s.offset, s.rest.head?, expected, .unexpected⟩

def succeed (value : α) : Rule α :=
  fun s => .ok value s none

/-- One rule after the other. The failures met on the way are weighed, the newer first. -/
def bind (p : Rule α) (f : α → Rule β) : Rule β :=
  fun s =>
    match p s with
    | .fail e => .fail e
    | .ok v t older =>
      match f v t with
      | .fail e => .fail (e.maxHint older)
      | .ok w u newer => .ok w u (Failure.later newer older)

instance : Monad Rule where
  pure := succeed
  bind := bind

/-- Forgets the value. -/
def void (p : Rule α) : Rule Unit :=
  bind p fun _ => succeed ()

/-- Replaces the value, or refuses it. A refusal blames the text from its start and reaches to
its end. -/
def check (p : Rule α) (f : α → Except Rejection β) : Rule β :=
  fun s =>
    match p s with
    | .fail e => .fail e
    | .ok v t hint =>
      match f v with
      | .ok w => .ok w t hint
      | .error why => .fail ⟨t.offset, s.offset, none, [], .rejected why⟩

/-- Builds a node from the mark of what was read and its value. -/
def marked (build : Mark → α → β) (p : Rule α) : Rule β :=
  fun s =>
    match p s with
    | .fail e => .fail e
    | .ok v t hint => .ok (build ⟨s.position, t.position⟩ v) t hint

/-- Reads without moving on. -/
def ahead (p : Rule α) : Rule α :=
  fun s =>
    match p s with
    | .fail e => .fail e
    | .ok v _ hint => .ok v s hint

/-- The first rule, or else the second. -/
def either (p q : Rule α) : Rule α :=
  fun s =>
    match p s with
    | .ok v t hint => .ok v t hint
    | .fail e =>
      match q s with
      | .ok v t hint => .ok v t hint
      | .fail e' => .fail (e.max e')

/-- The first rule of a list that succeeds. Of failures at one place the last counts first. -/
def choice : List (Rule α) → Rule α
  | [] => fun s => .fail (unexpected s [])
  | [p] => p
  | p :: rest => fun s =>
    match p s with
    | .ok v t hint => .ok v t hint
    | .fail e =>
      match choice rest s with
      | .ok v t hint => .ok v t hint
      | .fail e' => .fail (e'.max e)

def maybe (p : Rule α) : Rule (Option α) :=
  fun s =>
    match p s with
    | .ok v t hint => .ok (some v) t hint
    | .fail e => .ok none s (some e)

/-- A block that runs into the end of the input is to blame itself, from its opening brace on.
Other failures pass, and so does a block that would only start at the end. -/
def closed (p : Rule α) : Rule α :=
  fun s =>
    match p s with
    | .ok v t hint => .ok v t hint
    | .fail e =>
      if !s.rest.isEmpty && e.found.isNone && decide (s.finish ≤ e.start) &&
          e.reason == .unexpected then
        .fail ⟨e.reach, s.offset, none, [some '\x7d'], .unclosed s.offset⟩
      else .fail e

end Rule

end SoyTree
