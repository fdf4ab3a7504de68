import CodeGraph.Files
import CodeGraph.Pipeline.Pool

/-!
Feeding the pool with the paths of a directory or of a list. Here every path is worked on as soon
as it is submitted, by the first worker that is idle.
-/

namespace CodeGraph

structure WalkStats where
  pool : Stats := {}
  cancelled : Bool := false
  deriving DecidableEq, Repr, Inhabited

def WalkStats.json (s : WalkStats) : Json :=
  .object [("cancelled", .bool s.cancelled), ("emit_failures", .int s.pool.emitFailures),
    ("failed", .int s.pool.failed), ("processed", .int s.pool.processed),
    ("skipped", .int s.pool.skipped), ("submitted", .int s.pool.submitted)]

/-- The number of paths that are looked at before a run is stopped, if it is. -/
abbrev Cancellation := Option Nat

namespace Walk

def defaultExclude : List String := [".git", "node_modules", "bin", "obj"]

/-- The paths of a list: its lines without surrounding blanks, unless nothing remains. -/
def listed (text : String) : List String :=
  ((Text.lines text).map Text.trim).filter (· ≠ "")

/-- Submits a path and gives it to the first idle worker, who is named. -/
def assign? (pool : Pool) (path : String) : Option (Nat × Pool) :=
  (pool.submit? path).bind fun queued =>
    let i := queued.workers.findIdx (· == Worker.idle)
    (queued.take? i).map fun taken => (i, taken)

/-- Submits a path and waits for the end of the work on it. -/
def serve {σ : Type} (process : String → StateM σ (Option Verdict)) (pool : Pool) (path : String) :
    ExceptT Failure (StateM σ) Pool :=
  match assign? pool path with
  | none => throw (Failure.other "all workers have exited")
  | some (i, taken) => do
      let verdict ← process path
      return (taken.finish? i verdict).getD taken

/-- Feeds paths to a pool until the run is stopped or nobody takes them. -/
def feed {σ : Type} (process : String → StateM σ (Option Verdict)) :
    Cancellation → List String → Pool → ExceptT Failure (StateM σ) WalkStats
  | _, [], pool => return ⟨pool.close.stats, false⟩
  | some 0, _ :: _, pool => return ⟨pool.close.stats, true⟩
  | stop, path :: paths, pool => do
      let pool ← serve process pool path
      feed process (stop.map (· - 1)) paths pool

def run {σ : Type} [Emitter σ] (o : PoolOptions) (p : Processor) (stop : Cancellation)
    (paths : List String) : ExceptT Failure (StateM σ) WalkStats :=
  feed { p with keepFound := o.keepFound }.process stop paths (Pool.start o)

def runDirectory {σ : Type} [Emitter σ] (o : PoolOptions) (p : Processor) (exclude : List String)
    (root : Entry) (stop : Cancellation) (dir : String) : ExceptT Failure (StateM σ) WalkStats :=
  run o p stop (root.walk exclude dir)

def runList {σ : Type} [Emitter σ] (o : PoolOptions) (p : Processor) (root : Entry)
    (stop : Cancellation) (list : String) : ExceptT Failure (StateM σ) WalkStats :=
  match root.readText list with
  | .ok text => run o p stop (listed text)
  | .error e => throw (e.failure list)

end Walk

end CodeGraph
