import CodeGraph.Failure

/-!
Embeddings: vectors for texts. An embedder answers a list of texts with one vector each, in order,
or fails. A service that takes only so many texts at a time is called chunk by chunk. Every chunk
must be answered by as many vectors as it has texts, and the first chunk that is not ends the whole.
-/

namespace CodeGraph

/-- The vector of a text, by its coordinates. -/
abbrev Embedding := List Binary64

abbrev Embedder := List String → Except Failure (List Embedding)

namespace Embedding

def defaultBatchSize : Nat := 100

def defaultDimensions : Nat := 768

/-- The embedder that works without a service: every vector is zero. -/
def zero (dimensions : Nat) : Embedder :=
  fun texts => .ok (texts.map fun _ => List.replicate dimensions Binary64.zero)

/-- A coordinate that is no finite number is null. -/
def coordinate (x : Binary64) : Json :=
  if x.isFinite then .float x else .null

def json (v : Embedding) : Json :=
  .list (v.map coordinate)

/-! ### Chunks -/

/-- The consecutive chunks of `size` members, the last one possibly shorter. A size of zero counts
as one. -/
def chunks {α : Type} (size : Nat) : List α → List (List α)
  | [] => []
  | a :: s => (a :: s.take (size - 1)) :: chunks size (s.drop (size - 1))
  termination_by s => s.length
  decreasing_by simp only [List.length_drop, List.length_cons]; omega

variable {m : Type → Type} [Monad m]

/-- Calls a service for one chunk and checks the number of vectors. -/
def callChecked (call : List String → ExceptT Failure m (List Embedding)) (chunk : List String) :
    ExceptT Failure m (List Embedding) := do
  let vectors ← call chunk
  if vectors.length = chunk.length then
    return vectors
  else
    throw (.embedding ("expected " ++ toString chunk.length ++ " embeddings, got "
      ++ toString vectors.length))

/-- Embeds texts by one call for each chunk. -/
def inChunks (size : Nat) (call : List String → ExceptT Failure m (List Embedding))
    (texts : List String) : ExceptT Failure m (List Embedding) := do
  let answers ← (chunks size texts).mapM (callChecked call)
  return answers.flatten

end Embedding

end CodeGraph
