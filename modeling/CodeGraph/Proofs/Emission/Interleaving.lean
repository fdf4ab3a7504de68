import CodeGraph.Proofs.Emission.Jobs
import Mathlib.Data.List.Perm.Basic

/-!
Workers that share one output. They take paths from the pool's queue and make their calls of the
output in any order among each other; each call is one step, and the output may refuse any of
them. The stream of taken records is then an interleaving of what the single files contribute, and
each file contributes the beginning of its own sequence of records.
-/

namespace CodeGraph

/-- `whole` is an interleaving of `parts`: from nothing it grows by one item after the other, each
of which is added to the end of one part. -/
inductive Interleaves {α : Type} : List (List α) → List α → Prop
  | empty (n : Nat) : Interleaves (List.replicate n []) []
  | grow {parts : List (List α)} {whole part : List α} {i : Nat} (x : α)
      (h : Interleaves parts whole) (hpart : parts[i]? = some part) :
      Interleaves (parts.set i (part ++ [x])) (whole ++ [x])

namespace Interleaves

variable {α : Type} {parts : List (List α)} {whole part : List α}

/-- Several items may be added to one part at once, or none. -/
theorem extend {i : Nat} (h : Interleaves parts whole) (hpart : parts[i]? = some part)
    (xs : List α) : Interleaves (parts.set i (part ++ xs)) (whole ++ xs) := by
  induction xs generalizing parts whole part with
  | nil =>
      obtain ⟨hlt, rfl⟩ := List.getElem?_eq_some_iff.mp hpart
      rwa [List.append_nil, List.append_nil, List.set_getElem_self]
  | cons x xs ih =>
      have hlt : i < parts.length := (List.getElem?_eq_some_iff.mp hpart).1
      have hgrown := ih (h.grow x hpart) (List.getElem?_set_self hlt)
      simpa using hgrown

/-- A further part may start empty. -/
theorem add_part (h : Interleaves parts whole) : Interleaves (parts ++ [[]]) whole := by
  induction h with
  | empty n =>
      rw [← List.replicate_succ']
      exact .empty (n + 1)
  | @grow parts whole part i x _ hpart ih =>
      have hlt : i < parts.length := (List.getElem?_eq_some_iff.mp hpart).1
      have hgrown := ih.grow (i := i) x (by rwa [List.getElem?_append_left hlt])
      rwa [List.set_append_left _ _ hlt] at hgrown

/-- An interleaving has all items of its parts and no others. -/
theorem perm_flatten (h : Interleaves parts whole) : whole.Perm parts.flatten := by
  induction h with
  | empty n => simp
  | @grow parts whole part i x _ hpart ih =>
      -- Old and new parts differ in one place; what they share is cancelled.
      have hswap := parts.getD_set_perm_cons i (part ++ [x])
      rw [hpart, Option.getD_some] at hswap
      have hflat : (part ++ (parts.set i (part ++ [x])).flatten).Perm
          (part ++ ([x] ++ parts.flatten)) := by
        simpa using hswap.flatten
      have hrest := (List.perm_append_left_iff part).mp hflat
      exact (List.perm_append_comm.trans (ih.append_left [x])).trans hrest.symm

end Interleaves

/-- A pool at work: the jobs that were given to its workers, in order, and their common output
with the records that it has taken. -/
structure Crew (σ : Type) where
  pool : Pool
  sink : σ
  jobs : List Job := []
  /-- For each worker, the number of the job that it was given last. -/
  assigned : List Nat
  stream : List Record := []

/-- What can happen next. What is not possible when it is tried changes nothing. -/
inductive Move where
  | submit (path : String)
  | take (worker : Nat)
  /-- A busy worker calls the output once. -/
  | call (worker : Nat)
  /-- A worker whose job has ended reports its verdict. -/
  | finish (worker : Nat)
  | close
  | leave (worker : Nat)

namespace Crew

variable {σ : Type}

def start (o : PoolOptions) (sink : σ) : Crew σ where
  pool := Pool.start o
  sink
  assigned := List.replicate (max o.workers 1) 0

/-- The number of the job that a worker is busy with. -/
def busyWith? (c : Crew σ) (worker : Nat) : Option Nat :=
  match c.pool.workers[worker]? with
  | some (.busy _) => c.assigned[worker]?
  | _ => none

variable [Emitter σ]

def move (p : Processor) (c : Crew σ) : Move → Crew σ
  | .submit path => { c with pool := (c.pool.submit? path).getD c.pool }
  | .take worker =>
      match c.pool.queue, c.pool.take? worker with
      | path :: _, some pool =>
          { c with
            pool
            jobs := c.jobs ++ [Job.ofPath p path]
            assigned := c.assigned.set worker c.jobs.length }
      | _, _ => c
  | .call worker =>
      match c.busyWith? worker with
      | none => c
      | some k =>
          match c.jobs[k]? with
          | none => c
          | some j =>
              let (j, taken, sink) := j.call c.sink
              { c with jobs := c.jobs.set k j, stream := c.stream ++ taken, sink }
  | .finish worker =>
      match ((c.busyWith? worker).bind (c.jobs[·]?)).bind Job.verdict? with
      | some v => { c with pool := (c.pool.finish? worker v).getD c.pool }
      | none => c
  | .close => { c with pool := c.pool.close }
  | .leave worker => { c with pool := (c.pool.leave? worker).getD c.pool }

def run (p : Processor) (c : Crew σ) (moves : List Move) : Crew σ :=
  moves.foldl (move p) c

structure Sound (p : Processor) (c : Crew σ) : Prop where
  jobs : ∀ j ∈ c.jobs, j.Sound p
  stream : Interleaves (c.jobs.map Job.sent) c.stream

variable {p : Processor} {c : Crew σ}

omit [Emitter σ] in
theorem sound_start (o : PoolOptions) (sink : σ) : (start o sink).Sound p where
  jobs := by simp [start]
  stream := .empty 0

omit [Emitter σ] in
theorem Sound.give (h : c.Sound p) (path : String) (pool : Pool) (assigned : List Nat) :
    ({ c with pool, jobs := c.jobs ++ [Job.ofPath p path], assigned } : Crew σ).Sound p where
  jobs := by
    intro j hj
    rcases List.mem_append.mp hj with hj | hj
    · exact h.jobs j hj
    · obtain rfl := List.mem_singleton.mp hj
      exact Job.sound_ofPath p path
  stream := by
    rw [List.map_append]
    exact h.stream.add_part

theorem Sound.call (h : c.Sound p) {k : Nat} {j : Job} (hj : c.jobs[k]? = some j) :
    ({ c with
      jobs := c.jobs.set k (j.call c.sink).1
      stream := c.stream ++ (j.call c.sink).2.1
      sink := (j.call c.sink).2.2 } : Crew σ).Sound p where
  jobs := by
    intro j' hj'
    rcases List.mem_or_eq_of_mem_set hj' with hold | rfl
    · exact h.jobs j' hold
    · exact (h.jobs j (List.mem_of_getElem? hj)).call c.sink
  stream := by
    have hpart : (c.jobs.map Job.sent)[k]? = some j.sent := by
      rw [List.getElem?_map, hj]
      rfl
    rw [List.map_set, Job.sent_call]
    exact h.stream.extend hpart _

/-- Every move keeps the crew sound. -/
theorem Sound.move (h : c.Sound p) (m : Move) : (c.move p m).Sound p := by
  cases m with
  | submit path => exact ⟨h.jobs, h.stream⟩
  | take worker =>
      simp only [Crew.move]
      split
      · exact h.give _ _ _
      · exact h
  | call worker =>
      simp only [Crew.move]
      split
      · exact h
      · split
        · exact h
        · rename_i hj
          exact h.call hj
  | finish worker =>
      simp only [Crew.move]
      split
      · exact ⟨h.jobs, h.stream⟩
      · exact h
  | close => exact ⟨h.jobs, h.stream⟩
  | leave worker => exact ⟨h.jobs, h.stream⟩

theorem Sound.run (h : c.Sound p) (moves : List Move) : (c.run p moves).Sound p :=
  List.foldlRecOn moves (Crew.move p) h fun _ hc m _ => hc.move m

/-- An output that takes a given number of records and refuses all others. -/
structure Quota where
  room : Nat

instance : Emitter Quota where
  emit _ := fun q =>
    match q.room with
    | 0 => (.error (.emit "full"), q)
    | n + 1 => (.ok (), ⟨n⟩)
  close := pure ()

end Crew

end CodeGraph
