import CodeGraph.Text.Basic

/-!
Paths as texts with `/` between their components. Nothing here looks at a file system, so one
path always gives one answer.
-/

namespace CodeGraph.Path

def isSlash (c : Char) : Bool :=
  c == '/'

def isDot (c : Char) : Bool :=
  c == '.'

/-- The components between the slashes, empty ones included. -/
def components (path : List Char) : List (List Char) :=
  Seq.splitOn isSlash path

/-- The directory part, or nothing when there is no slash. -/
def parent (path : String) : String :=
  match Seq.cutLast? isSlash path.toList with
  | some ([], _) => "/"
  | some (dir, _) => String.ofList dir
  | none => ""

/-- The last component without its extension; a leading dot starts no extension. Both kinds of
slash end a component. -/
def stem (path : String) : String :=
  let name := Seq.lastPiece (fun c => c == '/' || c == '\\') path.toList
  match Seq.cutLast? isDot name with
  | none | some ([], _) => String.ofList name
  | some (before, _) => String.ofList before

def hasExtension (path : String) : Bool :=
  match Seq.cutLast? isDot (Seq.lastPiece isSlash path.toList) with
  | none | some ([], _) => false
  | some _ => true

/-- Adds one component to a collapsed path held in reverse: empty components and `.` do nothing,
and `..` undoes a component, is kept at the front of a relative path and dropped at the root. -/
def collapse (absolute : Bool) (done : List (List Char)) (part : List Char) : List (List Char) :=
  if part = [] ∨ part = ['.'] then done
  else if part = ['.', '.'] then
    match done with
    | last :: rest =>
        if last = ['.', '.'] then (if absolute then done else part :: done) else rest
    | [] => if absolute then [] else [part]
  else part :: done

def isAbsolute (path : List Char) : Bool :=
  path.head? == some '/'

def collapsed (path : List Char) : List (List Char) :=
  ((components path).foldl (collapse (isAbsolute path)) []).reverse

def normalizeChars (path : List Char) : List Char :=
  let joined := ['/'].intercalate (collapsed path)
  if isAbsolute path then '/' :: joined
  else if joined = [] then ['.']
  else joined

/-- Collapses `.` and `..`; what remains of nothing is `.`. -/
def normalize : String → String := Text.onChars normalizeChars

/-- Joins a path onto the directory that holds `file`. -/
def joinRelative (file path : String) : String :=
  let dir := parent file
  if dir == "" then normalize path else normalize (dir ++ "/" ++ path)

def isRelativeModule (specifier : String) : Bool :=
  Text.startsWith "./" specifier || Text.startsWith "../" specifier
    || specifier == "." || specifier == ".."

/-- The file that a module specifier names, seen from `file`: a relative one is joined and gets
the extension `.ts` if it has none, and a package name stands for itself. -/
def moduleFile (file specifier : String) : String :=
  if isRelativeModule specifier then
    let joined := joinRelative file specifier
    if hasExtension joined then joined else joined ++ ".ts"
  else specifier

/-- The last component that names something: empty components and `.` after it are ignored, and
`..` names nothing. -/
def fileName? (path : String) : Option (List Char) :=
  let parts := components path.toList
  let kept := (parts.drop 1).filter fun p => p != [] && p != ['.']
  let named := match parts.head? with
    | none | some [] => kept
    | some first => first :: kept
  match named.getLast? with
  | none => none
  | some last => if last = ['.', '.'] || last = ['.'] then none else some last

/-- The text after the last dot of the file name, unless that dot is its first character. -/
def extension? (path : String) : Option String :=
  match fileName? path with
  | none => none
  | some name =>
      match Seq.cutLast? isDot name with
      | none | some ([], _) => none
      | some (_, ext) => some (String.ofList ext)

end CodeGraph.Path
