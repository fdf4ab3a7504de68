import CodeGraph.Text.Chars
import CodeGraph.Text.Pattern

/-!
Single lines of Visual Basic: what remains of a line without strings and comments, and the shapes
of the lines that open and close blocks.
-/

namespace CodeGraph.Vb

open Pattern

/-- Blanks string literals and drops the comment; `inString` says whether a string is open. -/
def stripFrom (inString : Bool) : List Char → List Char
  | [] => []
  | c :: s =>
      if c == '"' then c :: stripFrom (!inString) s
      else if inString then ' ' :: stripFrom inString s
      else if c == '\'' then []
      else c :: stripFrom inString s

/-- A line without the contents of its strings and without its comment. -/
def strip (line : List Char) : List Char :=
  if Seq.startsWith "rem ".toList (Chars.lower (Chars.trimStart line)) then []
  else stripFrom false line

/-- Words from a list, each followed by white space, in any number. -/
def modifiers (words : List String) : Pattern :=
  most (seq (keywords words) spaces1)

def typeKeywords : List String := ["Class", "Module", "Structure", "Interface"]

def routineKeywords : List String := ["Sub", "Function"]

/-- The first line of a type: the keyword is part 1 and the name is part 2. -/
def typeStart : Pattern :=
  seqs [start, spaces,
    modifiers ["Public", "Private", "Friend", "Protected", "Partial", "MustInherit",
      "NotInheritable", "Shared", "Shadows"],
    group 1 (keywords typeKeywords), spaces1, group 2 word]

def typeEnd : Pattern :=
  seqs [start, spaces, keyword "End", spaces1, keywords typeKeywords, edge]

def anything : Pattern :=
  some1 (one (· != '\n'))

/-- A line that names supertypes: the keyword is part 1 and the list is part 2. -/
def supertypeLine : Pattern :=
  seqs [start, spaces, group 1 (keywords ["Inherits", "Implements"]), spaces1, group 2 anything,
    stop]

/-- The first line of a routine: the keyword is part 1 and the name is part 2. -/
def routineStart : Pattern :=
  seqs [start, spaces,
    modifiers ["Public", "Private", "Friend", "Protected", "Shared", "Overrides", "Overridable",
      "Overloads", "MustOverride", "NotOverridable", "Shadows", "Static", "Async", "Iterator",
      "Partial"],
    group 1 (keywords routineKeywords), spaces1, group 2 word]

def routineEnd : Pattern :=
  seqs [start, spaces, keyword "End", spaces1, keywords routineKeywords, edge]

/-- A declaration of locals; their list is part 1. -/
def localLine : Pattern :=
  seqs [start, spaces,
    alts [keyword "Dim", keyword "Const", keyword "Static",
      seq (keyword "ReDim") (opt (seq spaces1 (keyword "Preserve")))],
    spaces1, group 1 anything, stop]

/-- A line that begins a branch or a loop. -/
def branchLine : Pattern :=
  seqs [start, spaces,
    alts [keyword "If", keyword "ElseIf", keyword "For", keyword "While",
      seqs [keyword "Do", spaces1, keywords ["While", "Until"]],
      keyword "Case", keyword "Catch"],
    edge]

def shortCircuit : Pattern :=
  seqs [edge, keywords ["AndAlso", "OrElse"], edge]

/-- A name before an opening parenthesis is part 2; what it is a member of is part 1. -/
def callPattern : Pattern :=
  seqs [opt (seqs [edge, group 1 word, spaces, char '.', spaces]),
    edge, group 2 (seq (one fun c => Text.isAsciiLetter c || c == '_') (most (one Text.isWord))),
    spaces, char '(']

/-- The name behind `Call` is part 1. -/
def callStatement : Pattern :=
  seqs [edge, keyword "Call", spaces1, group 1 word]

/-- A parameter is part 1. -/
def parameterPattern : Pattern :=
  seqs [alt start (char ','), spaces, modifiers ["ByVal", "ByRef", "Optional", "ParamArray"],
    group 1 word]

def shapeOf? (p : Pattern) (line : List Char) : Option Match :=
  p.first? (symbolsOf line)

def hasShape (p : Pattern) (line : List Char) : Bool :=
  p.occursIn (symbolsOf line)

end CodeGraph.Vb
