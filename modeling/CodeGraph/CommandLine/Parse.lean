import CodeGraph.CommandLine.Basic

/-!
Reading a command line. Words are read from left to right. An option without an attached value
waits for the next word, and is checked when the word after that is read or the line ends, so that
a mistake further left is reported first. Conflicts and missing arguments are looked for last.
-/

namespace CodeGraph.CommandLine

/-- The options, each of which takes one value. -/
inductive Opt where
  | dir
  | fileList
  | output
  | nodes
  | edges
  | workers
  | config
  | embedding
  | project
  | location
  deriving DecidableEq, Repr, Inhabited

/-- The flags, which take none. -/
inductive Flag where
  | keepPartial
  | verbose
  | help
  | version
  deriving DecidableEq, Repr, Inhabited

inductive Switch where
  | option (o : Opt)
  | flag (f : Flag)
  deriving DecidableEq, Repr, Inhabited

/-- What can be said before the command, or after it. -/
inductive Level where
  | program
  | ingest
  deriving DecidableEq, Repr, Inhabited

def longNames : Level → List (String × Switch)
  | .program =>
      [("verbose", .flag .verbose), ("help", .flag .help), ("version", .flag .version)]
  | .ingest =>
      [("dir", .option .dir), ("file-list", .option .fileList), ("output", .option .output),
        ("nodes", .option .nodes), ("edges", .option .edges), ("workers", .option .workers),
        ("config", .option .config), ("embedding", .option .embedding),
        ("project", .option .project), ("location", .option .location),
        ("keep-partial", .flag .keepPartial), ("verbose", .flag .verbose), ("help", .flag .help)]

def letters : Level → List (Char × Switch)
  | .program => [('v', .flag .verbose), ('h', .flag .help), ('V', .flag .version)]
  | .ingest =>
      [('d', .option .dir), ('o', .option .output), ('w', .option .workers),
        ('c', .option .config), ('v', .flag .verbose), ('h', .flag .help)]

/-- Stores a value for which there must not be one yet. -/
def fill {α : Type} (old : Option α) (v : Except Usage α) : Except Usage (Option α) :=
  if old.isSome then .error .argumentConflict else v.map some

/-- A path, which is not empty. -/
def path (v : String) : Except Usage String :=
  if v = "" then .error .invalidValue else .ok v

def number (v : String) : Except Usage Nat :=
  ((Digits.word64? v).map Except.ok).getD (.error .valueValidation)

def provider (v : String) : Except Usage Provider :=
  ((Provider.ofName? v).map Except.ok).getD (.error .invalidValue)

def store (a : IngestArgs) (v : String) : Opt → Except Usage IngestArgs
  | .dir => return { a with dir := ← fill a.dir (path v) }
  | .fileList => return { a with fileList := ← fill a.fileList (path v) }
  | .output => return { a with output := ← fill a.output (path v) }
  | .nodes => return { a with nodes := ← fill a.nodes (path v) }
  | .edges => return { a with edges := ← fill a.edges (path v) }
  | .workers => return { a with workers := ← fill a.workers (number v) }
  | .config => return { a with config := ← fill a.config (path v) }
  | .embedding => return { a with embedding := ← fill a.embedding (provider v) }
  | .project => return { a with project := ← fill a.project (.ok v) }
  | .location => return { a with location := ← fill a.location (.ok v) }

/-- An option that is read but not stored: it waits for its value, or has it. -/
inductive Waiting where
  | none
  | forValue (o : Opt)
  | forCheck (o : Opt) (v : String)
  deriving DecidableEq, Repr, Inhabited

structure State where
  args : IngestArgs := {}
  waiting : Waiting := .none
  deriving Inhabited

namespace State

/-- Stores the option that waits; one that still waits for its value has none. -/
def settle (s : State) : Except Usage State :=
  match s.waiting with
  | .none => .ok s
  | .forValue _ => .error .invalidValue
  | .forCheck o v => return ⟨← store s.args v o, .none⟩

def takeOption (s : State) (o : Opt) : Option String → Except Usage State
  | some v => do
      let s ← s.settle
      return { s with args := ← store s.args v o }
  | none => do
      let s ← s.settle
      return { s with waiting := .forValue o }

/-- Sets a flag that is not set yet. -/
def takeFlag (s : State) (f : Flag) : Except Usage State := do
  let s ← s.settle
  match f with
  | .help => throw .displayHelp
  | .version => throw .displayVersion
  | .keepPartial =>
      if s.args.keepPartial then throw .argumentConflict
      return { s with args := { s.args with keepPartial := true } }
  | .verbose =>
      if s.args.verbose then throw .argumentConflict
      return { s with args := { s.args with verbose := true } }

/-- Reads a word that starts with two dashes, without them. -/
def takeLong (level : Level) (s : State) (word : List Char) : Except Usage State :=
  let (name, v) :=
    match Seq.cut? ['='] word with
    | some (name, v) => (name, some (String.ofList v))
    | none => (word, none)
  match (longNames level).lookup (String.ofList name) with
  | none => .error .unknownArgument
  | some (.option o) => s.takeOption o v
  | some (.flag f) => if v.isSome then .error .tooManyValues else s.takeFlag f

/-- The value attached to the letter of an option, possibly after an equals sign. -/
def attached : List Char → Option String
  | [] => none
  | '=' :: v => some (String.ofList v)
  | v => some (String.ofList v)

/-- Reads the letters of a word that starts with one dash. -/
def takeLetters (level : Level) (s : State) : List Char → Except Usage State
  | [] => .ok s
  | c :: rest =>
      match (letters level).lookup c with
      | none => .error .unknownArgument
      | some (.option o) => s.takeOption o (attached rest)
      | some (.flag f) => do (← s.takeFlag f).takeLetters level rest

end State

/-- The last checks: arguments that exclude each other, then arguments that need each other. -/
def check (a : IngestArgs) : Except Usage IngestArgs :=
  if a.dir.isSome && a.fileList.isSome then .error .argumentConflict
  else if a.output.isSome && (a.nodes.isSome || a.edges.isSome) then .error .argumentConflict
  else if a.nodes.isSome != a.edges.isSome then .error .missingRequiredArgument
  else .ok a

def finish (s : State) : Except Usage IngestArgs := do
  check (← s.settle).args

/-- Reads the words after the command. A word that is no switch is the value of the option that
waits for one; otherwise nothing takes it, as nothing takes a word after `--`. -/
def ingestWords (s : State) : List String → Except Usage IngestArgs
  | [] => finish s
  | word :: words =>
      match word.toList with
      | ['-', '-'] => if words.isEmpty then finish s else .error .unknownArgument
      | '-' :: '-' :: rest => do ingestWords (← s.takeLong .ingest rest) words
      | '-' :: c :: rest => do ingestWords (← s.takeLetters .ingest (c :: rest)) words
      | _ =>
          match s.waiting with
          | .forValue o => ingestWords { s with waiting := .forCheck o word } words
          | _ => .error .unknownArgument

/-- Asks for help on a command, which must be one. -/
def help : List String → Usage
  | [] | ["ingest"] | ["help"] => .displayHelp
  | _ => .invalidSubcommand

def noCommand (s : State) : Usage :=
  if s.args.verbose then .missingSubcommand else .displayHelpOnMissing

/-- Reads the words before the command, and with it the rest. -/
def programWords (s : State) : List String → Except Usage IngestArgs
  | [] => .error (noCommand s)
  | word :: words =>
      match word.toList with
      | ['-', '-'] =>
          match words with
          | [] => .error (noCommand s)
          | next :: _ =>
              .error (if next = "ingest" ∨ next = "help" then .unknownArgument
                else .invalidSubcommand)
      | '-' :: '-' :: rest => do programWords (← s.takeLong .program rest) words
      | '-' :: c :: rest => do programWords (← s.takeLetters .program (c :: rest)) words
      | _ =>
          if word = "ingest" then do
            let a ← ingestWords {} words
            return { a with verbose := a.verbose || s.args.verbose }
          else if word = "help" then .error (help words)
          else .error .invalidSubcommand

/-- Reads a command line without the name of the program. -/
def parse (words : List String) : Except Usage IngestArgs :=
  programWords {} words

end CodeGraph.CommandLine
