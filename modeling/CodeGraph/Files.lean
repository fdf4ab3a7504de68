import CodeGraph.Outline
import CodeGraph.Path

/-!
A tree of directories and files, seen from its root, with the errors of looking into it. There are
no links, so a path leads to one place. A walk finds the files below a directory, depth first and in
the order of their names; directories with an excluded name are left out with all that they hold,
and the starting point is never excluded.
-/

namespace CodeGraph

/-- What a file holds: its bytes and, for a language that has one, the syntax tree of its text. -/
structure FileContent where
  bytes : Bytes := []
  tree : Option Tree := none
  deriving Repr, Inhabited

inductive Entry where
  | file (content : FileContent)
  | directory (entries : List (String × Entry))
  /-- Neither a file nor a directory, such as a socket. -/
  | other
  deriving Repr, Inhabited

/-- Why a file cannot be reached, read or made. -/
inductive AccessError where
  | notFound
  | notDirectory
  | isDirectory
  | noDevice
  /-- The file is no UTF-8 text. -/
  | notText
  deriving DecidableEq, Repr, Inhabited

def AccessError.reason : AccessError → String
  | notFound => "No such file or directory (os error 2)"
  | notDirectory => "Not a directory (os error 20)"
  | isDirectory => "Is a directory (os error 21)"
  | noDevice => "No such device or address (os error 6)"
  | notText => "stream did not contain valid UTF-8"

/-- The failure of an access to a path. -/
def AccessError.failure (path : String) (e : AccessError) : Failure :=
  .io path e.reason

/-- The names that lead from the root to an entry. -/
abbrev Place := List String

namespace Entry

def at? : Entry → Place → Option Entry
  | e, [] => some e
  | directory entries, name :: rest => (entries.lookup name).bind (·.at? rest)
  | _, _ :: _ => none

def isDirectory : Entry → Bool
  | directory _ => true
  | _ => false

/-- Binds a name in a list of entries, in place of what it was bound to. -/
def bind (name : String) (e : Entry) : List (String × Entry) → List (String × Entry)
  | [] => [(name, e)]
  | (n, old) :: rest => if n = name then (name, e) :: rest else (n, old) :: bind name e rest

/-- Puts an entry at a place; directories on the way are made where nothing is. -/
def put : Entry → Place → Entry → Entry
  | _, [], e => e
  | directory entries, name :: rest, e =>
      directory (bind name (put ((entries.lookup name).getD (directory [])) rest e) entries)
  | _, name :: rest, e => directory [(name, put (directory []) rest e)]

/-- One step of a path from a place: an empty component and `.` stay there, `..` goes up, and any
of them needs a directory to start from. -/
def step (root : Entry) (here : Place) (part : String) : Except AccessError Place :=
  match root.at? here with
  | none => .error .notFound
  | some (directory entries) =>
      if part = "" ∨ part = "." then .ok here
      else if part = ".." then (if here = [] then .error .notFound else .ok here.dropLast)
      else if (entries.lookup part).isSome then .ok (here ++ [part])
      else .error .notFound
  | some _ => .error .notDirectory

def parts? (path : String) : Option (List String) :=
  if path = "" ∨ Path.isAbsolute path.toList then none
  else some ((Path.components path.toList).map String.ofList)

/-- The place of a path. Nothing outside the root is found. -/
def locate (root : Entry) (path : String) : Except AccessError Place :=
  match parts? path with
  | none => .error .notFound
  | some parts => parts.foldlM root.step []

def read (root : Entry) (path : String) : Except AccessError FileContent := do
  match root.at? (← root.locate path) with
  | some (file content) => return content
  | some (directory _) => throw .isDirectory
  | some other => throw .noDevice
  | none => throw .notFound

def readText (root : Entry) (path : String) : Except AccessError String := do
  match Utf8.strict? (← root.read path).bytes with
  | some s => return String.ofList s
  | none => throw .notText

/-- The place for a new file at a path, in a directory that is there. -/
def placeFor (root : Entry) (path : String) : Except AccessError Place := do
  match parts? path with
  | none => throw .notFound
  | some parts =>
      let closed := parts.reverse.dropWhile (· = "")
      match closed with
      | [] => throw .isDirectory
      | last :: before =>
          let parent ← before.reverse.foldlM root.step []
          let place ← root.step parent "."
          if last = "." ∨ last = ".." then
            let _ ← root.step place last
            throw .isDirectory
          else if closed.length < parts.length then throw .isDirectory
          else return place ++ [last]

/-- Makes an empty file at a path, in place of a file that is there. -/
def create (root : Entry) (path : String) : Except AccessError Entry := do
  let place ← root.placeFor path
  match root.at? place with
  | some (directory _) => throw .isDirectory
  | some other => throw .noDevice
  | _ => return root.put place (file {})

/-- Writes bytes over the beginning of the file at a path and keeps what lies beyond them. -/
def overwrite (root : Entry) (path : String) (bytes : Bytes) : Entry :=
  match root.locate path, root.read path with
  | .ok place, .ok old => root.put place (file ⟨bytes ++ old.bytes.drop bytes.length, none⟩)
  | _, _ => root

end Entry

/-! ### Walks -/

def Path.join (dir name : String) : String :=
  if Text.endsWith "/" dir then dir ++ name else dir ++ "/" ++ name

namespace Entry

mutual

/-- The paths of the files from an entry on, given the path of the entry. -/
def files (exclude : List String) (path : String) : Entry → List String
  | file _ => [path]
  | directory entries =>
      ((filesIn exclude path entries).mergeSort fun a b => a.1 ≤ b.1).flatMap (·.2)
  | other => []

def filesIn (exclude : List String) (dir : String) :
    List (String × Entry) → List (String × List String)
  | [] => []
  | (name, e) :: rest =>
      (name, if e.isDirectory && exclude.contains name then []
        else files exclude (Path.join dir name) e) :: filesIn exclude dir rest

end

/-- The files from a path on; none if nothing is there. -/
def walk (root : Entry) (exclude : List String) (path : String) : List String :=
  match root.locate path with
  | .ok place => ((root.at? place).map (files exclude path)).getD []
  | .error _ => []

end Entry

end CodeGraph
