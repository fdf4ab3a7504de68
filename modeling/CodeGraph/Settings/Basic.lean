import CodeGraph.Embedding.Vertex
import CodeGraph.Pipeline.Walk
import CodeGraph.Text.Chars

/-!
The settings of a run. They start from defaults; a file, the environment and the command line each
override what came before.
-/

namespace CodeGraph

/-- Where embeddings come from. -/
inductive Provider where
  | zero
  | vertex
  deriving DecidableEq, Repr, Inhabited

namespace Provider

def name : Provider → String
  | zero => "zero"
  | vertex => "vertex"

def ofName? (s : String) : Option Provider :=
  [zero, vertex].find? (·.name == s)

end Provider

structure EmbeddingSettings where
  provider : Provider := .zero
  project : Option String := none
  location : String := Embedding.Vertex.defaultLocation
  model : String := Embedding.Vertex.defaultModel
  /-- The address of the service, if it is not the one of the region. -/
  endpoint : Option String := none
  token : Option String := none
  batchSize : Nat := Embedding.defaultBatchSize
  /-- The length of zero vectors. -/
  dimensions : Nat := Embedding.defaultDimensions
  deriving DecidableEq, Repr, Inhabited

structure Settings where
  workers : Nat := 4
  queueCapacity : Nat := 100
  keepFound : Bool := false
  exclude : List String := Walk.defaultExclude
  embedding : EmbeddingSettings := {}
  deriving DecidableEq, Repr, Inhabited

/-- The environment: the value of each variable that is set. -/
abbrev Environment := String → Option String

namespace Variable

def workers : String := "GRAPHDB_WORKERS"

def project : String := "GOOGLE_CLOUD_PROJECT"

def location : String := "GOOGLE_CLOUD_LOCATION"

def model : String := "GRAPHDB_EMBEDDING_MODEL"

def token : String := "VERTEX_ACCESS_TOKEN"

end Variable

namespace EmbeddingSettings

/-- The settings without the token, which is never shown. -/
def json (e : EmbeddingSettings) : Json :=
  .object [("provider", .str e.provider.name), ("project", Json.ofOption .str e.project),
    ("location", .str e.location), ("model", .str e.model),
    ("endpoint", Json.ofOption .str e.endpoint), ("batch_size", .int e.batchSize),
    ("dimensions", .int e.dimensions)]

def client (e : EmbeddingSettings) (project token : String) : Embedding.Vertex :=
  let v := ((Embedding.Vertex.of project e.location token).withModel e.model).withBatchSize
    e.batchSize
  match e.endpoint with
  | some base => v.withBase base
  | none => v

def build (e : EmbeddingSettings) (send : Embedding.Vertex.Transport) : Except Failure Embedder :=
  match e.provider with
  | .zero => .ok (Embedding.zero e.dimensions)
  | .vertex =>
      match e.project, e.token with
      | none, _ => .error (.config "embedding" "vertex provider requires a project")
      | some _, none => .error (.config Variable.token "vertex provider requires an access token")
      | some project, some token => .ok ((e.client project token).embedder send)

end EmbeddingSettings

namespace Settings

def json (s : Settings) : Json :=
  .object [("workers", .int s.workers), ("queue_capacity", .int s.queueCapacity),
    ("keep_partial_results", .bool s.keepFound), ("exclude_dirs", .list (s.exclude.map .str)),
    ("embedding", s.embedding.json)]

def nonblank? (env : Environment) (name : String) : Option String :=
  (env name).filter fun v => Text.trim v ≠ ""

/-- Takes over what the environment sets. Nothing is taken over if the number of workers is not a
number. -/
def overrideBy (s : Settings) (env : Environment) : Except Failure Settings := do
  let workers ←
    match nonblank? env Variable.workers with
    | none => pure s.workers
    | some v =>
        match Digits.word64? (Text.trim v) with
        | some n => pure n
        | none => throw (.config Variable.workers ("not a number: " ++ v))
  let e := s.embedding
  return { s with
    workers
    embedding := { e with
      project := (nonblank? env Variable.project).or e.project
      location := (nonblank? env Variable.location).getD e.location
      model := (nonblank? env Variable.model).getD e.model
      token := (nonblank? env Variable.token).or e.token } }

def validate (s : Settings) : Except Failure Unit :=
  let least := "must be at least 1"
  if s.workers = 0 then .error (.config "workers" least)
  else if s.queueCapacity = 0 then .error (.config "queue_capacity" least)
  else if s.embedding.batchSize = 0 then .error (.config "embedding.batch_size" least)
  else if s.embedding.provider = .vertex ∧ s.embedding.project = none then
    .error (.config "embedding.project"
      ("vertex provider requires a project (set " ++ Variable.project ++ ")"))
  else .ok ()

def poolOptions (s : Settings) : PoolOptions :=
  ⟨s.workers, s.queueCapacity, s.keepFound⟩

end Settings

end CodeGraph
