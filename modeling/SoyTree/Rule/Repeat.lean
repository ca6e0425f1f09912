import SoyTree.Rule.Basic

/-! # Repetition and recursion

Recursive rules are unfolded along the input: an inner use of the rule has to start strictly
later than the outer one, so the number of characters left bounds the unfolding.
-/

namespace SoyTree.Rule

variable {α β : Type}

/-- Uses a rule only where less input is left than at `s`. -/
def beyond (s : Cursor) (p : Rule α) : Rule α :=
  fun t => if t.rest.length < s.rest.length then p t else .fail (unexpected t [])

/-- The rule that `step` describes in terms of itself, unfolded `n` times. -/
def unfoldTimes (step : Rule α → Rule α) : Nat → Rule α
  | 0 => fun s => .fail (unexpected s [])
  | n + 1 => fun s => step (beyond s (unfoldTimes step n)) s

/-- The rule that `step` describes in terms of itself. -/
def recursive (step : Rule α → Rule α) : Rule α :=
  fun s => unfoldTimes step (s.rest.length + 1) s

/-- Two depths of unfolding agree where both exceed the input left. -/
theorem unfoldTimes_congr (step : Rule α → Rule α) (m n : Nat) (s : Cursor)
    (hm : s.rest.length < m) (hn : s.rest.length < n) :
    unfoldTimes step m s = unfoldTimes step n s := by
  induction m generalizing n s with
  | zero => omega
  | succ m ih =>
    cases n with
    | zero => omega
    | succ n =>
      have h : beyond s (unfoldTimes step m) = beyond s (unfoldTimes step n) := by
        funext t
        unfold beyond
        split
        · exact ih n t (by omega) (by omega)
        · rfl
      simp only [unfoldTimes, h]

/-- A recursive rule is its description, with inner uses that start later. -/
theorem recursive_eq (step : Rule α → Rule α) (s : Cursor) :
    recursive step s = step (beyond s (recursive step)) s := by
  have h : beyond s (unfoldTimes step s.rest.length) = beyond s (recursive step) := by
    funext t
    unfold beyond recursive
    split
    · exact unfoldTimes_congr step _ _ t (by omega) (by omega)
    · rfl
  exact congrFun (congrArg step h) s

/-- As many times as possible. -/
def many (p : Rule α) : Rule (List α) :=
  recursive fun again s =>
    match p s with
    | .fail e => .ok [] s (some e)
    | .ok v t older =>
      match again t with
      | .fail _ => .ok [v] t older
      | .ok vs u newer => .ok (v :: vs) u (Failure.later newer older)

/-- As many times as possible, at least once. -/
def many1 (p : Rule α) : Rule (List α) :=
  bind p fun v => bind (many p) fun vs => succeed (v :: vs)

/-- Items with separators between them, at least one. A separator without an item after it is
left alone. -/
def sepBy1 (p : Rule α) (separator : Rule β) : Rule (List α) :=
  bind p fun v => bind (many (bind separator fun _ => p)) fun vs => succeed (v :: vs)

/-- Items with separators between them, possibly none. -/
def sepBy (p : Rule α) (separator : Rule β) : Rule (List α) :=
  fun s =>
    match sepBy1 p separator s with
    | .fail e => .ok [] s (some e)
    | .ok vs t hint => .ok vs t hint

/-- Passes over characters of `rest` until `stop` succeeds, and tells what was passed. At the end
of the input the last failure of `stop` counts. -/
def passUntil (stop : Rule β) : Position → (rest : List Char) → Reply (List Char × β)
  | position, [] =>
    match stop ⟨position, []⟩ with
    | .ok w u hint => .ok ([], w) u hint
    | .fail e => .fail e
  | position, c :: rest =>
    match stop ⟨position, c :: rest⟩ with
    | .ok w u hint => .ok ([], w) u hint
    | .fail e =>
      match passUntil stop (position.next c) rest with
      | .ok (passed, w) u hint => .ok (c :: passed, w) u (Failure.later hint (some e))
      | .fail e' => .fail e'

/-- Everything up to the first place where `stop` succeeds, with the value of `stop`, which is
read as well. -/
def upTo (stop : Rule β) : Rule (List Char × β) :=
  fun s => passUntil stop s.position s.rest

/-- Everything up to the first place where `stop` succeeds; reading goes on in front of it. -/
def rawUntil (stop : Rule β) : Rule (List Char) :=
  bind (upTo (ahead stop)) fun found => succeed found.1

/-- Everything up to the first place where `stop` succeeds; reading goes on behind it. -/
def rawThrough (stop : Rule β) : Rule (List Char) :=
  bind (rawUntil stop) fun passed => bind stop fun _ => succeed passed

end SoyTree.Rule
