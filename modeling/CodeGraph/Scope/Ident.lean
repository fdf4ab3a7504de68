import CodeGraph.Text.Basic

/-!
Identifiers of code entities. There are four shapes: `path:name` for what belongs to a file,
`namespace.Type` for what is known by its qualified name, `owner:member` for members, and
`UNKNOWN:symbol` for what no definition explains.
-/

namespace CodeGraph.Ident

def inFile (path name : String) : String :=
  path ++ ":" ++ name

/-- A name in a namespace, or the bare name in the global one. -/
def qualified (space name : String) : String :=
  if space == "" then name else space ++ "." ++ name

def member (owner name : String) : String :=
  owner ++ ":" ++ name

/-- A type: in its owner if it is nested, else in its namespace. -/
def typeIn (space : String) (owner : Option String) (name : String) : String :=
  match owner with
  | some owner => owner ++ "." ++ name
  | none => qualified space name

def unresolvedMark : String := "UNKNOWN"

def unresolved (symbol : String) : String :=
  unresolvedMark ++ ":" ++ symbol

def isUnresolved (id : String) : Bool :=
  Text.startsWith (unresolvedMark ++ ":") id

def endsTypeName (c : Char) : Bool :=
  c == '<' || c == '[' || c == '?' || c == '('

def baseTypeChars (s : List Char) : List Char :=
  Chars.trim ((Chars.trim s).takeWhile fun c => !endsTypeName c)

/-- A type reference without type arguments, array brackets, nullable mark and arguments. -/
def baseType : String → String := Text.onChars baseTypeChars

/-- The naming convention for interfaces: a capital `I` followed by another capital. -/
def looksLikeInterface (name : String) : Bool :=
  match Seq.lastPiece (· == '.') (baseTypeChars name.toList) with
  | 'I' :: c :: _ => Text.isAsciiUpper c
  | _ => false

end CodeGraph.Ident
