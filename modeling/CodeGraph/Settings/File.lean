import CodeGraph.Settings.Basic
import CodeGraph.Toml.Document

/-!
Settings from a TOML file. A setting that the file does not mention keeps its default, and keys
that name no setting are ignored. A group of settings can also be written as an array, in order.
-/

namespace CodeGraph

namespace Toml

def string? : Toml → Option String
  | string s => some s
  | _ => none

def boolean? : Toml → Option Bool
  | boolean b => some b
  | _ => none

def natural? : Toml → Option Nat
  | integer n => if 0 ≤ n then some n.toNat else none
  | _ => none

/-- The members of an array, or of the tables under a repeated header. -/
def items? : Toml → Option (List Toml)
  | array items => some items
  | tables elements => some (elements.reverse.map (table .header))
  | _ => none

def strings? (v : Toml) : Option (List String) :=
  v.items?.bind (·.mapM string?)

/-- A value without content, which stands for nothing but its key. -/
def isEmpty : Toml → Bool
  | array items => items.isEmpty
  | table _ entries => entries.isEmpty
  | _ => false

/-- A provider by its name, which can also be the only key of a table. -/
def provider? : Toml → Option Provider
  | string s => Provider.ofName? s
  | table _ [(name, v)] => if v.isEmpty then Provider.ofName? name else none
  | _ => none

/-- The entries of a group of settings: by name in a table, by position in an array. -/
def group? (names : List String) : Toml → Option Entries
  | table _ entries => some entries
  | v => v.items?.map names.zip

def Entries.getOr {α : Type} (entries : Entries) (name : String) (read : Toml → Option α)
    (default : α) : Option α :=
  match entries.lookup name with
  | none => some default
  | some v => read v

end Toml

namespace EmbeddingSettings

def names : List String :=
  ["provider", "project", "location", "model", "endpoint", "access_token", "batch_size",
    "dimensions"]

def ofToml? (v : Toml) : Option EmbeddingSettings := do
  let e : EmbeddingSettings := {}
  let entries ← v.group? names
  let text (t : Toml) : Option (Option String) := t.string?.map some
  return {
    provider := ← entries.getOr "provider" Toml.provider? e.provider
    project := ← entries.getOr "project" text e.project
    location := ← entries.getOr "location" Toml.string? e.location
    model := ← entries.getOr "model" Toml.string? e.model
    endpoint := ← entries.getOr "endpoint" text e.endpoint
    token := ← entries.getOr "access_token" text e.token
    batchSize := ← entries.getOr "batch_size" Toml.natural? e.batchSize
    dimensions := ← entries.getOr "dimensions" Toml.natural? e.dimensions }

end EmbeddingSettings

namespace Settings

def ofEntries? (entries : Toml.Entries) : Option Settings := do
  let s : Settings := {}
  return {
    workers := ← entries.getOr "workers" Toml.natural? s.workers
    queueCapacity := ← entries.getOr "queue_capacity" Toml.natural? s.queueCapacity
    keepFound := ← entries.getOr "keep_partial_results" Toml.boolean? s.keepFound
    exclude := ← entries.getOr "exclude_dirs" Toml.strings? s.exclude
    embedding := ← entries.getOr "embedding" EmbeddingSettings.ofToml? s.embedding }

def malformed : String := "malformed configuration"

def ofText (path text : String) : Except Failure Settings :=
  match (Toml.read? text).bind ofEntries? with
  | some s => .ok s
  | none => .error (.config path malformed)

def load (root : Entry) (path : String) : Except Failure Settings :=
  match root.readText path with
  | .ok text => ofText path text
  | .error e => .error (e.failure path)

end Settings

end CodeGraph
