import CodeGraph.Embedding.Basic
import CodeGraph.Text.Basic

/-!
The client of the Vertex AI embedding service. How a request is sent is a parameter; without a
network every request fails.
-/

namespace CodeGraph.Embedding

structure Vertex where
  project : String
  location : String
  model : String
  /-- The address of the service, without a slash at its end. -/
  base : String
  token : String
  batchSize : Nat
  deriving DecidableEq, Repr, Inhabited

namespace Vertex

def defaultLocation : String := "us-central1"

def defaultModel : String := "text-embedding-004"

/-- A client with the default model at the service of its region. -/
def of (project location token : String) : Vertex where
  project
  location
  model := defaultModel
  base := "https://" ++ location ++ "-aiplatform.googleapis.com"
  token
  batchSize := defaultBatchSize

def withModel (v : Vertex) (model : String) : Vertex :=
  { v with model }

def withBase (v : Vertex) (base : String) : Vertex :=
  { v with base := Text.onChars (fun s => (s.reverse.dropWhile (· == '/')).reverse) base }

/-- Sets the number of texts of one request, which is at least one. -/
def withBatchSize (v : Vertex) (size : Nat) : Vertex :=
  { v with batchSize := max size 1 }

def endpoint (v : Vertex) : String :=
  v.base ++ "/v1/projects/" ++ v.project ++ "/locations/" ++ v.location
    ++ "/publishers/google/models/" ++ v.model ++ ":predict"

/-- A description of a client, which keeps its token to itself. -/
def describe (v : Vertex) : String :=
  "VertexEmbedder \x7b project: " ++ Text.quoted v.project
    ++ ", location: " ++ Text.quoted v.location
    ++ ", model: " ++ Text.quoted v.model
    ++ ", base_url: " ++ Text.quoted v.base
    ++ ", batch_size: " ++ toString v.batchSize ++ " \x7d"

/-- What is sent for one chunk of texts. -/
structure Request where
  address : String
  token : String
  texts : List String

/-- How a request reaches the service and its answer comes back. -/
abbrev Transport := Request → Except Failure (List Embedding)

/-- The transport of a machine without a network. -/
def offline : Transport :=
  fun _ => .error (.http "error sending request")

def embedder (v : Vertex) (send : Transport) : Embedder :=
  fun texts =>
    (inChunks v.batchSize (fun chunk => ExceptT.mk (m := Id) (send ⟨v.endpoint, v.token, chunk⟩))
      texts).run

end Vertex

end CodeGraph.Embedding
