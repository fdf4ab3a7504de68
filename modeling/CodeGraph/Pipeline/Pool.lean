import CodeGraph.Pipeline.Processor

/-!
The worker pool as a machine. Paths wait in a bounded queue; an idle worker takes the first of
them and records what became of it. A crash takes the worker with it and records nothing. After
the queue is closed, a worker leaves when nothing waits.
-/

namespace CodeGraph

/-- How many paths were accepted, and what became of them. -/
structure Stats where
  submitted : Nat := 0
  processed : Nat := 0
  skipped : Nat := 0
  failed : Nat := 0
  emitFailures : Nat := 0
  deriving DecidableEq, Repr, Inhabited

def Stats.record (s : Stats) : Verdict → Stats
  | .ok .processed => { s with processed := s.processed + 1 }
  | .ok .skipped => { s with skipped := s.skipped + 1 }
  | .ok .failed => { s with failed := s.failed + 1 }
  | .error _ => { s with emitFailures := s.emitFailures + 1 }

structure PoolOptions where
  workers : Nat := 4
  queueCapacity : Nat := 100
  keepFound : Bool := false
  deriving DecidableEq, Repr, Inhabited

inductive Worker where
  | idle
  | busy (path : String)
  | gone
  deriving DecidableEq, Repr, Inhabited

structure Pool where
  capacity : Nat
  queue : List String := []
  isOpen : Bool := true
  workers : List Worker
  stats : Stats := {}
  deriving DecidableEq, Repr, Inhabited

namespace Pool

/-- A pool of at least one worker with room for at least one path. -/
def start (o : PoolOptions) : Pool where
  capacity := max o.queueCapacity 1
  workers := List.replicate (max o.workers 1) .idle

def isDeserted (p : Pool) : Bool :=
  p.workers.all (· == .gone)

def setWorker (p : Pool) (i : Nat) (w : Worker) : Pool :=
  { p with workers := p.workers.set i w }

/-- Appends a path to the queue if there is room and someone to take it. -/
def submit? (p : Pool) (path : String) : Option Pool :=
  if p.isOpen && p.queue.length < p.capacity && !p.isDeserted then
    some { p with
      queue := p.queue ++ [path]
      stats := { p.stats with submitted := p.stats.submitted + 1 } }
  else none

/-- An idle worker takes the first path of the queue. -/
def take? (p : Pool) (i : Nat) : Option Pool :=
  match p.workers[i]?, p.queue with
  | some .idle, path :: queue => some ({ p with queue }.setWorker i (.busy path))
  | _, _ => none

/-- A busy worker ends its work with a verdict, or crashes without one. -/
def finish? (p : Pool) (i : Nat) : Option Verdict → Option Pool
  | some v =>
      match p.workers[i]? with
      | some (.busy _) => some ({ p with stats := p.stats.record v }.setWorker i .idle)
      | _ => none
  | none =>
      match p.workers[i]? with
      | some (.busy _) => some (p.setWorker i .gone)
      | _ => none

def close (p : Pool) : Pool :=
  { p with isOpen := false }

/-- An idle worker leaves when nothing waits and nothing can come. -/
def leave? (p : Pool) (i : Nat) : Option Pool :=
  match p.workers[i]? with
  | some .idle => if p.isOpen || !p.queue.isEmpty then none else some (p.setWorker i .gone)
  | _ => none

end Pool

end CodeGraph
