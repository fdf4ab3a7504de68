import CodeGraph.Text.Bytes
import CodeGraph.Text.Class
import CodeGraph.Text.Seq

/-!
Patterns over decoded text. `Pattern.runs` lists every way in which a pattern can match at a place,
the preferred one first: the left alternative before the right one, and a repetition as long (or,
for `fewest`, as short) as possible. A match is the first run at the first place that has one, and
`Pattern.all` goes on behind each match.
-/

namespace CodeGraph

inductive Pattern where
  /-- Matches the empty text. -/
  | nothing
  /-- Matches one character of a class; broken bytes are in no class. -/
  | one (accepts : Char → Bool)
  /-- Holds at the beginning of the text. -/
  | start
  /-- Holds at the end of the text. -/
  | stop
  /-- Holds between a word character and something else. -/
  | edge
  | seq (p q : Pattern)
  | alt (p q : Pattern)
  /-- Remembers the text matched by a part. -/
  | group (index : Nat) (p : Pattern)
  /-- Repeats at most `limit` times, preferring more. -/
  | atMost (limit : Nat) (p : Pattern)
  /-- Repeats any number of times, preferring more. -/
  | most (p : Pattern)
  /-- Repeats any number of times, preferring fewer. -/
  | fewest (p : Pattern)

namespace Pattern

/-- The text of a remembered part, with its place counted in symbols. -/
structure Group where
  index : Nat
  start : Nat
  stop : Nat
  text : List Symbol
  deriving DecidableEq, Repr

/-- A place in a text, together with the parts remembered on the way there. -/
structure Place where
  last : Option Symbol
  offset : Nat
  rest : List Symbol
  groups : List Group

def Place.ofText (text : List Symbol) : Place :=
  ⟨none, 0, text, []⟩

def isWordSymbol : Option Symbol → Bool
  | some (.char c) => Text.isWord c
  | _ => false

def Place.next (here : Place) (s : Symbol) (rest : List Symbol) : Place :=
  { here with last := some s, offset := here.offset + 1, rest := rest }

/-- The symbols between two places of one text. -/
def Place.upTo (a b : Place) : List Symbol :=
  a.rest.take (a.rest.length - b.rest.length)

/-- All ends of at most `limit` steps, the longest way first. -/
def greedy (step : Place → List Place) : Nat → Place → List Place
  | 0, here => [here]
  | n + 1, here => (step here).flatMap (greedy step n) ++ [here]

/-- All ends of at most `limit` steps, the shortest way first. -/
def reluctant (step : Place → List Place) : Nat → Place → List Place
  | 0, here => [here]
  | n + 1, here => here :: (step here).flatMap (reluctant step n)

/-- Every place at which a match that begins here can end, in order of preference. A repetition
without limit takes at most as many steps as there are symbols left, which is no restriction when
the repeated part is never empty. -/
def runs : Pattern → Place → List Place
  | nothing, here => [here]
  | one accepts, here =>
      match here.rest with
      | .char c :: rest => if accepts c then [here.next (.char c) rest] else []
      | _ => []
  | start, here => if here.last.isNone then [here] else []
  | stop, here => if here.rest.isEmpty then [here] else []
  | edge, here => if isWordSymbol here.last != isWordSymbol here.rest.head? then [here] else []
  | seq p q, here => (runs p here).flatMap (runs q)
  | alt p q, here => runs p here ++ runs q here
  | group i p, here =>
      (runs p here).map fun reached =>
        { reached with
          groups := reached.groups ++ [⟨i, here.offset, reached.offset, here.upTo reached⟩] }
  | atMost limit p, here => greedy (runs p) limit here
  | most p, here => greedy (runs p) here.rest.length here
  | fewest p, here => reluctant (runs p) here.rest.length here

/-- A match: its place counted in symbols, its text and its remembered parts. -/
structure Match where
  start : Nat
  stop : Nat
  text : List Symbol
  groups : List Group
  deriving DecidableEq, Repr

/-- The part remembered last under an index. -/
def Match.group? (m : Match) (index : Nat) : Option Group :=
  m.groups.reverse.find? (·.index == index)

/-- The preferred match that begins here. -/
def here? (p : Pattern) (last : Option Symbol) (offset : Nat) (rest : List Symbol) :
    Option Match :=
  let here : Place := ⟨last, offset, rest, []⟩
  (p.runs here).head?.map fun reached => ⟨offset, reached.offset, here.upTo reached, reached.groups⟩

/-- The matches from here on, when `skip` symbols still belong to the match before. -/
def allFrom (p : Pattern) (last : Option Symbol) (offset skip : Nat) : List Symbol → List Match
  | [] => []
  | s :: rest =>
      match skip with
      | skip + 1 => allFrom p (some s) (offset + 1) skip rest
      | 0 =>
          match p.here? last offset (s :: rest) with
          | some m => m :: allFrom p (some s) (offset + 1) (m.text.length - 1) rest
          | none => allFrom p (some s) (offset + 1) 0 rest

/-- The matches of a pattern that is never empty, from left to right, none inside another. -/
def all (p : Pattern) (text : List Symbol) : List Match :=
  allFrom p none 0 0 text

def firstFrom? (p : Pattern) (last : Option Symbol) (offset : Nat) : List Symbol → Option Match
  | [] => none
  | s :: rest =>
      (p.here? last offset (s :: rest)).or (firstFrom? p (some s) (offset + 1) rest)

/-- The leftmost match of a pattern that is never empty. -/
def first? (p : Pattern) (text : List Symbol) : Option Match :=
  firstFrom? p none 0 text

def occursIn (p : Pattern) (text : List Symbol) : Bool :=
  (p.first? text).isSome

/-- All parts in order. -/
def seqs : List Pattern → Pattern
  | [] => nothing
  | [p] => p
  | p :: ps => seq p (seqs ps)

/-- The first of the alternatives that leads to a match. -/
def alts : List Pattern → Pattern
  | [] => one fun _ => false
  | [p] => p
  | p :: ps => alt p (alts ps)

def char (c : Char) : Pattern :=
  one (· == c)

/-- A text, character by character. -/
def literal (s : String) : Pattern :=
  seqs (s.toList.map char)

/-- A text in any letter case. -/
def keyword (s : String) : Pattern :=
  seqs (s.toList.map fun c => one (Text.sameLetter c))

def keywords (ss : List String) : Pattern :=
  alts (ss.map keyword)

def opt (p : Pattern) : Pattern :=
  atMost 1 p

def some1 (p : Pattern) : Pattern :=
  seq p (most p)

def space : Pattern :=
  one Text.isSpace

def spaces : Pattern :=
  most space

def spaces1 : Pattern :=
  some1 space

def word : Pattern :=
  some1 (one Text.isWord)

end Pattern

def symbolsOf (s : List Char) : List Symbol :=
  s.map Symbol.char

def Pattern.Group.chars (g : Pattern.Group) : List Char :=
  g.text.map Symbol.toChar

def Pattern.Group.string (g : Pattern.Group) : String :=
  String.ofList g.chars

end CodeGraph
