import CodeGraph.Settings.Basic

/-!
The arguments of the program and the ways in which they can be refused.
-/

namespace CodeGraph

/-- Why a command line is not carried out. Asking for help or for the version is no mistake. -/
inductive Usage where
  | displayHelp
  | displayVersion
  /-- No argument was given where at least one is needed. -/
  | displayHelpOnMissing
  | missingSubcommand
  | invalidSubcommand
  | unknownArgument
  /-- A value is missing, or is none of the possible ones. -/
  | invalidValue
  /-- A value cannot be read. -/
  | valueValidation
  /-- Two arguments exclude each other, or one is given twice. -/
  | argumentConflict
  | missingRequiredArgument
  /-- A value is attached to an argument that takes none. -/
  | tooManyValues
  deriving DecidableEq, Repr, Inhabited

namespace Usage

def name : Usage → String
  | displayHelp => "DisplayHelp"
  | displayVersion => "DisplayVersion"
  | displayHelpOnMissing => "DisplayHelpOnMissingArgumentOrSubcommand"
  | missingSubcommand => "MissingSubcommand"
  | invalidSubcommand => "InvalidSubcommand"
  | unknownArgument => "UnknownArgument"
  | invalidValue => "InvalidValue"
  | valueValidation => "ValueValidation"
  | argumentConflict => "ArgumentConflict"
  | missingRequiredArgument => "MissingRequiredArgument"
  | tooManyValues => "TooManyValues"

def exitCode : Usage → Nat
  | displayHelp | displayVersion => 0
  | _ => 2

end Usage

/-- The arguments of the command that reads sources. -/
structure IngestArgs where
  dir : Option String := none
  fileList : Option String := none
  output : Option String := none
  nodes : Option String := none
  edges : Option String := none
  workers : Option Nat := none
  config : Option String := none
  embedding : Option Provider := none
  project : Option String := none
  location : Option String := none
  keepPartial : Bool := false
  verbose : Bool := false
  deriving DecidableEq, Repr, Inhabited

/-- Where records go. -/
inductive Target where
  | stdout
  | file (path : String)
  | split (nodes edges : String)
  deriving DecidableEq, Repr, Inhabited

namespace IngestArgs

def directory (a : IngestArgs) : String :=
  a.dir.getD "."

def target (a : IngestArgs) : Target :=
  match a.nodes, a.edges, a.output with
  | some nodes, some edges, _ => .split nodes edges
  | _, _, some path => .file path
  | _, _, none => .stdout

/-- Takes over into settings what the command line says. -/
def apply (a : IngestArgs) (s : Settings) : Settings :=
  let e := s.embedding
  { s with
    workers := a.workers.getD s.workers
    keepFound := a.keepPartial || s.keepFound
    embedding := { e with
      provider := a.embedding.getD e.provider
      project := a.project.or e.project
      location := a.location.getD e.location } }

end IngestArgs

end CodeGraph
