import CodeGraph.Text.Seq

/-!
Readers: functions that take what they recognize from the front of a text and leave the rest, or
fail and leave everything. Of two readers joined by `<|>` the second is tried where the first fails.
-/

namespace CodeGraph

abbrev Reader := StateT (List Char) Option

namespace Reader

variable {α : Type}

/-- Takes one character of a class. -/
def next (p : Char → Bool) : Reader Char :=
  fun s =>
    match s with
    | c :: rest => if p c then some (c, rest) else none
    | [] => none

def char (c : Char) : Reader Char :=
  next (· == c)

def text (t : String) : Reader Unit :=
  fun s => (Seq.stripStart? t.toList s).map fun rest => ((), rest)

/-- Takes the longest run of characters of a class, which can be empty. -/
def run (p : Char → Bool) : Reader (List Char) :=
  fun s => some (s.takeWhile p, s.dropWhile p)

/-- Takes the longest run of characters of a class, which must not be empty. -/
def run1 (p : Char → Bool) : Reader (List Char) := do
  let first ← next p
  return first :: (← run p)

/-- Takes nothing, at the end of a text only. -/
def atEnd : Reader Unit :=
  fun s => if s.isEmpty then some ((), s) else none

/-- Repeats a reader, at most `fuel` times, until it fails or takes nothing. -/
def repeated (r : Reader α) : (fuel : Nat) → Reader (List α)
  | 0 => return []
  | fuel + 1 => fun s =>
      match r s with
      | some (a, rest) =>
          if rest.length < s.length then (repeated r fuel rest).map fun (as, t) => (a :: as, t)
          else some ([], s)
      | none => some ([], s)

/-- Repeats a reader until it fails or takes nothing. Every round takes a character, so there are
no more rounds than characters. -/
def many (r : Reader α) : Reader (List α) :=
  fun s => repeated r s.length s

/-- One or more items with separators between them. A separator that no item follows is left. -/
def separated (item : Reader α) (sep : Reader Unit) : Reader (List α) := do
  let first ← item
  return first :: (← many (do sep; item))

/-- What a reader makes of a whole text. -/
def whole? (r : Reader α) (s : List Char) : Option α :=
  match r s with
  | some (a, []) => some a
  | _ => none

end Reader

end CodeGraph
