import CodeGraph.Pipeline.Pool
import Mathlib.Data.List.Perm.Basic

/-!
Runs of the worker pool under any schedule. A run is a sequence of events: a path is accepted, a
worker takes the first waiting path, the work on it ends, the queue is closed, a worker leaves. The
events tell the whole history, and the state of the pool is explained by them: every accepted path
has been worked on to its end, or crashed, or is in the hands of a worker, or still waits, and the
counters are those of the verdicts so far.
-/

namespace CodeGraph

def Verdict.isOutcome (outcome : Outcome) : Verdict → Bool
  | .ok o => o == outcome
  | .error _ => false

/-- Whether the output failed under the work on a file. -/
def Verdict.isFailure : Verdict → Bool
  | .ok _ => false
  | .error _ => true

/-- The counters that a list of verdicts comes to. -/
def Stats.ofVerdicts (submitted : Nat) (vs : List Verdict) : Stats where
  submitted
  processed := vs.countP (Verdict.isOutcome .processed)
  skipped := vs.countP (Verdict.isOutcome .skipped)
  failed := vs.countP (Verdict.isOutcome .failed)
  emitFailures := vs.countP Verdict.isFailure

/-- The number of paths of which the counters say what became of them. -/
def Stats.settled (s : Stats) : Nat :=
  s.processed + s.skipped + s.failed + s.emitFailures

theorem Stats.record_ofVerdicts (n : Nat) (vs : List Verdict) (v : Verdict) :
    (Stats.ofVerdicts n vs).record v = Stats.ofVerdicts n (vs ++ [v]) := by
  rcases v with e | (_ | _ | _) <;>
    simp [Stats.ofVerdicts, Stats.record, List.countP_append, Verdict.isOutcome,
      Verdict.isFailure]

/-- Every verdict is counted by exactly one of the counters. -/
theorem Stats.settled_ofVerdicts (n : Nat) (vs : List Verdict) :
    (Stats.ofVerdicts n vs).settled = vs.length := by
  induction vs with
  | nil => rfl
  | cons v vs ih =>
      simp only [Stats.settled, Stats.ofVerdicts, List.countP_cons, List.length_cons] at ih ⊢
      rcases v with e | (_ | _ | _) <;> simp [Verdict.isOutcome, Verdict.isFailure] <;> omega

/-- The order of the verdicts does not matter. -/
theorem Stats.ofVerdicts_perm (n : Nat) {vs ws : List Verdict} (h : vs.Perm ws) :
    Stats.ofVerdicts n vs = Stats.ofVerdicts n ws := by
  simp only [Stats.ofVerdicts, h.countP_eq]

theorem filterMap_concat {α β : Type} (xs : List α) (x : α) (f : α → Option β) :
    (xs ++ [x]).filterMap f = xs.filterMap f ++ (f x).toList := by
  rw [List.filterMap_append]
  cases h : f x <;> simp [h]

def Worker.path? : Worker → Option String
  | .busy path => some path
  | _ => none

namespace Pool

/-! ### What each operation does -/

theorem submit?_eq_some_iff {p q : Pool} {path : String} :
    p.submit? path = some q ↔
      (p.isOpen = true ∧ p.queue.length < p.capacity ∧ p.isDeserted = false) ∧
        q = { p with
          queue := p.queue ++ [path]
          stats := { p.stats with submitted := p.stats.submitted + 1 } } := by
  unfold submit?
  split
  · rename_i h
    simp only [Bool.and_eq_true, decide_eq_true_eq, Bool.not_eq_true'] at h
    simp only [Option.some.injEq, h, and_self, true_and, eq_comm]
  · rename_i h
    simp only [Bool.and_eq_true, decide_eq_true_eq, Bool.not_eq_true', not_and] at h
    constructor
    · intro hq
      simp at hq
    · rintro ⟨⟨hopen, hroom, hpresent⟩, -⟩
      exact absurd hpresent (h ⟨hopen, hroom⟩)

theorem take?_eq_some_iff {p q : Pool} {i : Nat} :
    p.take? i = some q ↔
      ∃ path rest, p.workers[i]? = some .idle ∧ p.queue = path :: rest ∧
        q = { p with queue := rest, workers := p.workers.set i (.busy path) } := by
  unfold take?
  split
  · rename_i path rest hw hq
    simp only [Option.some.injEq, hw, hq, setWorker, true_and, List.cons.injEq]
    constructor
    · rintro rfl
      exact ⟨path, rest, ⟨rfl, rfl⟩, rfl⟩
    · rintro ⟨_, _, ⟨rfl, rfl⟩, rfl⟩
      rfl
  · rename_i h
    constructor
    · intro hq
      simp at hq
    · rintro ⟨path, rest, hw, hqueue, -⟩
      exact (h path rest hw hqueue).elim

/-- The end of some work: a verdict is counted and its worker is free again; a crash is not
counted and takes the worker away. -/
theorem finish?_eq_some_iff {p q : Pool} {i : Nat} {v : Option Verdict} :
    p.finish? i v = some q ↔
      ∃ path, p.workers[i]? = some (.busy path) ∧
        q = match v with
          | some v => { p with stats := p.stats.record v, workers := p.workers.set i .idle }
          | none => { p with workers := p.workers.set i .gone } := by
  rcases hw : p.workers[i]? with _ | (_ | path | _) <;> cases v <;>
    simp [finish?, hw, setWorker, eq_comm]

theorem leave?_eq_some_iff {p q : Pool} {i : Nat} :
    p.leave? i = some q ↔
      (p.workers[i]? = some .idle ∧ p.isOpen = false ∧ p.queue = []) ∧
        q = { p with workers := p.workers.set i .gone } := by
  unfold leave?
  split
  · rename_i hw
    simp only [hw, setWorker, true_and]
    cases p.isOpen <;> cases p.queue <;> simp [eq_comm]
  · rename_i h
    constructor
    · intro hq
      simp at hq
    · rintro ⟨⟨hw, -, -⟩, -⟩
      exact (h hw).elim

/-! ### Events and runs -/

/-- What is seen of one step of a pool. -/
inductive Event where
  | accepted (path : String)
  | taken (worker : Nat) (path : String)
  /-- The work on a path ended with a verdict, or crashed without one. -/
  | ended (worker : Nat) (path : String) (verdict : Option Verdict)
  | closed
  | left (worker : Nat)

/-- One step of a pool, whoever makes it. -/
inductive Step : Pool → Event → Pool → Prop
  | submit {p q : Pool} (path : String) (h : p.submit? path = some q) :
      Step p (.accepted path) q
  | take {p q : Pool} {path : String} (i : Nat) (hpath : p.queue.head? = some path)
      (h : p.take? i = some q) : Step p (.taken i path) q
  | finish {p q : Pool} {path : String} (i : Nat) (v : Option Verdict)
      (hpath : p.workers[i]? = some (.busy path)) (h : p.finish? i v = some q) :
      Step p (.ended i path v) q
  | close {p : Pool} (h : p.isOpen = true) : Step p .closed p.close
  | leave {p q : Pool} (i : Nat) (h : p.leave? i = some q) : Step p (.left i) q

/-- A run from one pool to another, with its events in order. -/
inductive Run (p : Pool) : List Event → Pool → Prop
  | refl : Run p [] p
  | step {es : List Event} {q r : Pool} {e : Event} (run : Run p es q) (h : Step q e r) :
      Run p (es ++ [e]) r

/-- The pool after an event, unless the event is impossible. -/
def next? (p : Pool) : Event → Option Pool
  | .accepted path => p.submit? path
  | .taken i path => if p.queue.head? = some path then p.take? i else none
  | .ended i path v => if p.workers[i]? = some (.busy path) then p.finish? i v else none
  | .closed => if p.isOpen then some p.close else none
  | .left i => p.leave? i

theorem step_of_next? {p q : Pool} {e : Event} (h : p.next? e = some q) : Step p e q := by
  cases e with
  | accepted path => exact .submit path h
  | taken i path =>
      simp only [next?] at h
      split at h
      · rename_i hpath
        exact .take i hpath h
      · simp at h
  | ended i path v =>
      simp only [next?] at h
      split at h
      · rename_i hpath
        exact .finish i v hpath h
      · simp at h
  | closed =>
      simp only [next?] at h
      split at h
      · rename_i hopen
        obtain rfl := Option.some.inj h
        exact .close hopen
      · simp at h
  | left i => exact .leave i h

/-- A history can be replayed to see that it is one of a run. -/
theorem Run.replay {p q r : Pool} {es fs : List Event} (run : Run p es q)
    (h : fs.foldlM next? q = some r) : Run p (es ++ fs) r := by
  induction fs generalizing es q with
  | nil =>
      obtain rfl : q = r := by simpa using h
      simpa using run
  | cons f fs ih =>
      rw [List.foldlM_cons] at h
      obtain ⟨s, hs, hrest⟩ := Option.bind_eq_some_iff.mp h
      simpa using ih (run.step (step_of_next? hs)) hrest

namespace Event

@[simp] def accepted? : Event → Option String
  | .accepted path => some path
  | _ => none

@[simp] def completion? : Event → Option (String × Verdict)
  | .ended _ path (some v) => some (path, v)
  | _ => none

@[simp] def crash? : Event → Option String
  | .ended _ path none => some path
  | _ => none

@[simp] def departure? : Event → Option Nat
  | .left i => some i
  | _ => none

end Event

/-- The accepted paths, one for each acceptance. -/
def acceptedPaths (es : List Event) : List String :=
  es.filterMap Event.accepted?

/-- The works that ended with a verdict. -/
def completions (es : List Event) : List (String × Verdict) :=
  es.filterMap Event.completion?

/-- The paths on which a worker crashed. -/
def crashes (es : List Event) : List String :=
  es.filterMap Event.crash?

/-- The workers that left on their own. -/
def departures (es : List Event) : List Nat :=
  es.filterMap Event.departure?

def inHand (p : Pool) : List String :=
  p.workers.filterMap Worker.path?

section Histories

variable (es : List Event) (e : Event)

@[simp] theorem acceptedPaths_concat :
    acceptedPaths (es ++ [e]) = acceptedPaths es ++ e.accepted?.toList :=
  filterMap_concat es e _

@[simp] theorem completions_concat :
    completions (es ++ [e]) = completions es ++ e.completion?.toList :=
  filterMap_concat es e _

@[simp] theorem crashes_concat : crashes (es ++ [e]) = crashes es ++ e.crash?.toList :=
  filterMap_concat es e _

@[simp] theorem departures_concat :
    departures (es ++ [e]) = departures es ++ e.departure?.toList :=
  filterMap_concat es e _

end Histories

/-! ### The pool explained by its history -/

/-- What holds of a pool of so many workers after some events. -/
structure Accounts (size : Nat) (es : List Event) (p : Pool) : Prop where
  workers : p.workers.length = size
  -- Every acceptance is in exactly one of four places.
  conserved : (acceptedPaths es).Perm
    ((completions es).map Prod.fst ++ crashes es ++ p.inHand ++ p.queue)
  stats : p.stats =
    Stats.ofVerdicts (acceptedPaths es).length ((completions es).map Prod.snd)
  -- A worker is gone because it crashed or because it left.
  gone : p.workers.count .gone = (crashes es).length + (departures es).length
  -- Nobody leaves while something waits or may still come, and then nothing comes any more.
  departed : departures es ≠ [] → p.isOpen = false ∧ p.queue = []

/-- Giving a worker another state only exchanges the two states among those of all workers. -/
theorem perm_set_worker {ws : List Worker} {i : Nat} {old : Worker} (new : Worker)
    (h : ws[i]? = some old) : (new :: ws).Perm (old :: ws.set i new) := by
  have hperm := ws.getD_set_perm_cons i new
  rw [h, Option.getD_some] at hperm
  exact hperm.symm

theorem count_gone_set {ws : List Worker} {i : Nat} {old : Worker} (new : Worker)
    (h : ws[i]? = some old) (hpresent : old ≠ .gone) :
    (ws.set i new).count .gone = ws.count .gone + if new = .gone then 1 else 0 := by
  have hswap := (perm_set_worker new h).count_eq .gone
  simp only [List.count_cons, beq_iff_eq, hpresent, if_false, Nat.add_zero] at hswap
  exact hswap.symm

theorem accounts_start (o : PoolOptions) : Accounts (max o.workers 1) [] (start o) where
  workers := by simp [start]
  conserved := by
    have hfree : (start o).inHand = [] := by simp [inHand, start, Worker.path?]
    rw [hfree]
    exact List.Perm.refl _
  stats := rfl
  gone := by simp [start, crashes, departures, List.count_replicate]
  departed := by simp [departures]

namespace Accounts

variable {size : Nat} {es : List Event} {p q : Pool} {path : String} {i : Nat}

theorem submit (acc : Accounts size es p) (h : p.submit? path = some q) :
    Accounts size (es ++ [.accepted path]) q := by
  obtain ⟨⟨hopen, -, -⟩, rfl⟩ := submit?_eq_some_iff.mp h
  constructor
  case workers => exact acc.workers
  case conserved => simpa [inHand] using acc.conserved.append_right [path]
  case stats => simp [acc.stats, Stats.ofVerdicts]
  case gone => simpa using acc.gone
  case departed =>
    -- The queue is open, so nobody has left yet.
    intro hleft
    have hclosed := (acc.departed (by simpa using hleft)).1
    simp [hopen] at hclosed

theorem take (acc : Accounts size es p) (hpath : p.queue.head? = some path)
    (h : p.take? i = some q) : Accounts size (es ++ [.taken i path]) q := by
  obtain ⟨path', rest, hidle, hqueue, rfl⟩ := take?_eq_some_iff.mp h
  obtain rfl : path' = path := by simpa [hqueue] using hpath
  have hswap := perm_set_worker (.busy path') hidle
  constructor
  case workers => simpa using acc.workers
  case conserved =>
    -- The first waiting path goes into the hands of the worker.
    have hhand : (p.inHand ++ path' :: rest).Perm
        ((p.workers.set i (.busy path')).filterMap Worker.path? ++ rest) :=
      List.perm_middle.trans ((hswap.filterMap Worker.path?).append_right rest)
    have hkept := hhand.append_left ((completions es).map Prod.fst ++ crashes es)
    rw [← hqueue, ← List.append_assoc] at hkept
    simpa [inHand] using acc.conserved.trans hkept
  case stats => simpa using acc.stats
  case gone =>
    show (p.workers.set i (.busy path')).count .gone = _
    rw [count_gone_set _ hidle (by decide)]
    simpa using acc.gone
  case departed =>
    intro hleft
    have hnone := (acc.departed (by simpa using hleft)).2
    simp [hqueue] at hnone

/-- When a worker drops its path, that path comes first and all others are where they were. -/
theorem perm_released (acc : Accounts size es p) {rest : List String}
    (hhand : p.inHand.Perm (path :: rest)) :
    (acceptedPaths es).Perm
      (path :: ((completions es).map Prod.fst ++ (crashes es ++ (rest ++ p.queue)))) := by
  have hall := acc.conserved
  have hmoved := (hhand.append_right p.queue).append_left
    ((completions es).map Prod.fst ++ crashes es)
  rw [List.append_assoc] at hall
  rw [← List.append_assoc ((completions es).map Prod.fst)]
  exact (hall.trans hmoved).trans List.perm_middle

theorem complete (acc : Accounts size es p) {v : Verdict}
    (hbusy : p.workers[i]? = some (.busy path)) :
    Accounts size (es ++ [.ended i path (some v)])
      { p with stats := p.stats.record v, workers := p.workers.set i .idle } := by
  have hhand : p.inHand.Perm (path :: (p.workers.set i .idle).filterMap Worker.path?) :=
    (perm_set_worker .idle hbusy).filterMap Worker.path?
  constructor
  case workers => simpa using acc.workers
  case conserved =>
    have hdone := (acc.perm_released hhand).trans List.perm_middle.symm
    simpa [inHand] using hdone
  case stats => simp [acc.stats, Stats.record_ofVerdicts]
  case gone =>
    show (p.workers.set i .idle).count .gone = _
    rw [count_gone_set _ hbusy (by simp)]
    simpa using acc.gone
  case departed => simpa using acc.departed

theorem crash (acc : Accounts size es p) (hbusy : p.workers[i]? = some (.busy path)) :
    Accounts size (es ++ [.ended i path none]) { p with workers := p.workers.set i .gone } := by
  have hhand : p.inHand.Perm (path :: (p.workers.set i .gone).filterMap Worker.path?) :=
    (perm_set_worker .gone hbusy).filterMap Worker.path?
  constructor
  case workers => simpa using acc.workers
  case conserved =>
    have hlost := acc.perm_released hhand
    rw [← List.append_assoc] at hlost
    simpa [inHand] using hlost.trans List.perm_middle.symm
  case stats => simpa using acc.stats
  case gone =>
    show (p.workers.set i .gone).count .gone = _
    rw [count_gone_set _ hbusy (by simp), acc.gone]
    simp only [crashes_concat, departures_concat, Event.crash?, Event.departure?,
      Option.toList_some, Option.toList_none, List.append_nil, List.length_append,
      List.length_singleton, if_true]
    omega
  case departed => simpa using acc.departed

theorem leave (acc : Accounts size es p) (h : p.leave? i = some q) :
    Accounts size (es ++ [.left i]) q := by
  obtain ⟨⟨hidle, hclosed, hempty⟩, rfl⟩ := leave?_eq_some_iff.mp h
  have hhand : p.inHand.Perm ((p.workers.set i .gone).filterMap Worker.path?) :=
    (perm_set_worker .gone hidle).filterMap Worker.path?
  constructor
  case workers => simpa using acc.workers
  case conserved =>
    have hkept := (hhand.append_right p.queue).append_left
      ((completions es).map Prod.fst ++ crashes es)
    rw [← List.append_assoc] at hkept
    simpa [inHand] using acc.conserved.trans hkept
  case stats => simpa using acc.stats
  case gone =>
    show (p.workers.set i .gone).count .gone = _
    rw [count_gone_set _ hidle (by decide), acc.gone]
    simp only [crashes_concat, departures_concat, Event.crash?, Event.departure?,
      Option.toList_some, Option.toList_none, List.append_nil, List.length_append,
      List.length_singleton, if_true]
    omega
  case departed => exact fun _ => ⟨hclosed, hempty⟩

/-- A step keeps the accounts. -/
theorem step {e : Event} (acc : Accounts size es p) (h : Step p e q) :
    Accounts size (es ++ [e]) q := by
  cases h with
  | submit path h => exact acc.submit h
  | take i hpath h => exact acc.take hpath h
  | finish i v hpath h =>
      obtain ⟨_, -, rfl⟩ := finish?_eq_some_iff.mp h
      -- The counters see a verdict; a crash only shows in the number of workers that are gone.
      cases v with
      | some v => exact acc.complete hpath
      | none => exact acc.crash hpath
  | close h =>
      constructor
      case workers => exact acc.workers
      case conserved => simpa [close, inHand] using acc.conserved
      case stats => simpa [close] using acc.stats
      case gone => simpa [close] using acc.gone
      case departed =>
        intro hleft
        exact ⟨rfl, (acc.departed (by simpa using hleft)).2⟩
  | leave i h => exact acc.leave h

end Accounts

/-- Every run keeps the accounts, whatever the schedule. -/
theorem Run.accounts {o : PoolOptions} {es : List Event} {p : Pool} (run : Run (start o) es p) :
    Accounts (max o.workers 1) es p := by
  induction run with
  | refl => exact accounts_start o
  | step _ h ih => exact ih.step h

end Pool

end CodeGraph
