import CodeGraph.Pipeline.Walk
import CodeGraph.Proofs.Pool.Runs
import Mathlib.Algebra.Ring.Nat
import Mathlib.Data.List.Perm.Basic

/-!
What is known when a pool has stopped. Without crashes every accepted path was worked on exactly
once and the counters say what became of each. A crash is not counted, and its worker is lost; as
long as one worker is left the other paths do not suffer, but paths that wait when the last worker
crashes are never worked on.
-/

namespace CodeGraph.Pool

/-- The queue is closed and every worker is gone: this is what stopping a pool waits for. -/
def Stopped (p : Pool) : Prop :=
  p.isOpen = false ∧ p.isDeserted = true

theorem isDeserted_iff {p : Pool} : p.isDeserted = true ↔ ∀ w ∈ p.workers, w = .gone := by
  simp [isDeserted, List.all_eq_true]

theorem inHand_eq_nil {p : Pool} (h : p.isDeserted = true) : p.inHand = [] := by
  rw [inHand, List.filterMap_eq_nil_iff]
  intro w hw
  rw [isDeserted_iff.mp h w hw]
  rfl

namespace Accounts

variable {size : Nat} {es : List Event} {p : Pool}

/-- A pool that nobody has left on their own is deserted only if every worker crashed. -/
theorem length_crashes (acc : Accounts size es p) (h : p.isDeserted = true)
    (hstay : departures es = []) : (crashes es).length = size := by
  have hall : p.workers.count .gone = size := by
    rw [← acc.workers, List.count_eq_length]
    exact fun w hw => (isDeserted_iff.mp h w hw).symm
  have hgone := acc.gone
  rw [hstay, List.length_nil] at hgone
  omega

/-- Paths are left in the queue of a deserted pool only if every worker crashed: whoever leaves
finds the queue empty. -/
theorem crashes_of_queue_ne_nil (acc : Accounts size es p) (h : p.isDeserted = true)
    (hqueue : p.queue ≠ []) : (crashes es).length = size := by
  refine acc.length_crashes h ?_
  by_contra hleft
  exact hqueue (acc.departed hleft).2

/-- The same holds as long as the queue is open, which it is not any more when somebody leaves. -/
theorem crashes_of_isOpen (acc : Accounts size es p) (h : p.isDeserted = true)
    (hopen : p.isOpen = true) : (crashes es).length = size := by
  refine acc.length_crashes h ?_
  by_contra hleft
  have hclosed := (acc.departed hleft).1
  simp [hopen] at hclosed

/-- What became of the accepted paths of a deserted pool. -/
theorem perm_of_isDeserted (acc : Accounts size es p) (h : p.isDeserted = true) :
    (acceptedPaths es).Perm ((completions es).map Prod.fst ++ crashes es ++ p.queue) := by
  have hall := acc.conserved
  rwa [inHand_eq_nil h, List.append_nil] at hall

theorem settled (acc : Accounts size es p) : p.stats.settled = (completions es).length := by
  rw [acc.stats, Stats.settled_ofVerdicts, List.length_map]

theorem submitted (acc : Accounts size es p) :
    p.stats.submitted = (acceptedPaths es).length := by
  rw [acc.stats]
  rfl

end Accounts

/-! ### Stopping comes to an end -/

/-- The number of steps that a worker can still make when nothing waits. -/
def load : Worker → Nat
  | .idle => 1
  | .busy _ => 2
  | .gone => 0

/-- The number of steps that a closed pool can still make at most. -/
def backlog (p : Pool) : Nat :=
  2 * p.queue.length + (p.workers.map load).sum

/-- A closed pool stays closed and comes nearer to its end with every step. -/
theorem Step.backlog_lt {p q : Pool} {e : Event} (h : Step p e q) (hclosed : p.isOpen = false) :
    q.isOpen = false ∧ q.backlog < p.backlog := by
  -- Each change of a worker's state is an exchange, so the sum of the loads moves by their
  -- difference.
  have hload {i : Nat} {old : Worker} (new : Worker) (hold : p.workers[i]? = some old) :
      load new + (p.workers.map load).sum = load old + ((p.workers.set i new).map load).sum := by
    simpa using ((perm_set_worker new hold).map load).sum_nat
  cases h with
  | submit path h =>
      obtain ⟨⟨hopen, -, -⟩, -⟩ := submit?_eq_some_iff.mp h
      simp [hclosed] at hopen
  | take i _ h =>
      obtain ⟨path, rest, hidle, hqueue, rfl⟩ := take?_eq_some_iff.mp h
      have := hload (.busy path) hidle
      simp only [load, backlog, hqueue, List.length_cons] at this ⊢
      exact ⟨hclosed, by omega⟩
  | finish i v hpath h =>
      obtain ⟨_, -, rfl⟩ := finish?_eq_some_iff.mp h
      cases v with
      | some v =>
          have := hload .idle hpath
          simp only [load, backlog] at this ⊢
          exact ⟨hclosed, by omega⟩
      | none =>
          have := hload .gone hpath
          simp only [load, backlog] at this ⊢
          exact ⟨hclosed, by omega⟩
  | close h => simp [hclosed] at h
  | leave i h =>
      obtain ⟨⟨hidle, -, -⟩, rfl⟩ := leave?_eq_some_iff.mp h
      have := hload .gone hidle
      simp only [load, backlog] at this ⊢
      exact ⟨hclosed, by omega⟩

theorem Run.length_add_backlog_le {p q : Pool} {es : List Event} (run : Run p es q)
    (hclosed : p.isOpen = false) : q.isOpen = false ∧ es.length + q.backlog ≤ p.backlog := by
  induction run with
  | refl => exact ⟨hclosed, by simp⟩
  | step _ h ih =>
      obtain ⟨hq, hle⟩ := ih
      obtain ⟨hr, hlt⟩ := h.backlog_lt hq
      refine ⟨hr, ?_⟩
      rw [List.length_append, List.length_singleton]
      omega

/-- In a closed pool that has not stopped somebody can make a step, and nobody has to crash. -/
theorem exists_step_of_not_stopped {p : Pool} (hclosed : p.isOpen = false) (h : ¬p.Stopped) :
    ∃ e q, Step p e q ∧ e.crash? = none := by
  have hpresent : ∃ w ∈ p.workers, w ≠ .gone := by
    by_contra hgone
    push Not at hgone
    exact h ⟨hclosed, isDeserted_iff.mpr hgone⟩
  obtain ⟨w, hw, hne⟩ := hpresent
  obtain ⟨i, hi⟩ := List.mem_iff_getElem?.mp hw
  -- An idle worker leaves or takes a path, and a busy one can finish.
  cases w with
  | idle =>
      cases hqueue : p.queue with
      | nil => exact ⟨.left i, _, .leave i
          (leave?_eq_some_iff.mpr ⟨⟨hi, hclosed, hqueue⟩, rfl⟩), rfl⟩
      | cons path rest =>
          exact ⟨.taken i path, _, .take i (by rw [hqueue]; rfl)
            (take?_eq_some_iff.mpr ⟨path, rest, hi, hqueue, rfl⟩), rfl⟩
  | busy path =>
      exact ⟨.ended i path (some (.ok .processed)), _, .finish i _ hi
        (finish?_eq_some_iff.mpr ⟨path, hi, rfl⟩), rfl⟩
  | gone => exact absurd rfl hne

/-! ### Completeness without crashes -/

/-- In a run in which all work returns, a stopped pool has worked exactly once on each accepted
occurrence of a path: `report` lists, in the order of acceptance, one end of work for each of
them, and the counters are those of its verdicts. Stopping does come to an end: a closed pool can
only make a bounded number of steps, and it is stuck only when it has stopped. -/
theorem stopped_reports_each_acceptance (o : PoolOptions) {es : List Event} {p : Pool}
    (run : Run (start o) es p) (returns : crashes es = []) :
    (p.Stopped → ∃ report : List (String × Verdict),
      report.map Prod.fst = acceptedPaths es ∧ report.Perm (completions es) ∧
        p.stats = Stats.ofVerdicts (acceptedPaths es).length (report.map Prod.snd) ∧
        p.stats.settled = p.stats.submitted) ∧
      (p.isOpen = false →
        (p.Stopped ∨ ∃ e q, Step p e q ∧ e.crash? = none) ∧
          ∀ fs q, Run p fs q → fs.length ≤ p.backlog) := by
  have acc := run.accounts
  refine ⟨fun hstop => ?_, fun hclosed => ⟨?_, fun fs q later => ?_⟩⟩
  · have hempty : p.queue = [] := by
      by_contra hqueue
      have hall := acc.crashes_of_queue_ne_nil hstop.2 hqueue
      rw [returns, List.length_nil] at hall
      omega
    have hdone : (acceptedPaths es).Perm ((completions es).map Prod.fst) := by
      simpa [returns, hempty] using acc.perm_of_isDeserted hstop.2
    -- The ends of work are put into the order in which their paths were accepted.
    obtain ⟨report, hfst, hperm⟩ := (congrFun₂ (List.eq_map_comp_perm Prod.fst) _ _).mpr hdone
    refine ⟨report, hfst.symm, hperm, ?_, ?_⟩
    · rw [acc.stats]
      exact Stats.ofVerdicts_perm _ (hperm.symm.map Prod.snd)
    · rw [acc.settled, acc.submitted, hdone.length_eq, List.length_map]
  · exact or_iff_not_imp_left.mpr (exists_step_of_not_stopped hclosed)
  · exact Nat.le_of_add_right_le (later.length_add_backlog_le hclosed).2

/-- Two workers and room for one path: a path that is submitted twice is reported twice, once
with each of its verdicts. -/
theorem two_workers_report_each_acceptance :
    ∃ es p, Run (start { workers := 2, queueCapacity := 1 }) es p ∧ crashes es = [] ∧
      p.Stopped ∧ acceptedPaths es = ["a.ts", "b.md", "a.ts"] ∧
      ∃ report : List (String × Verdict),
        report.map Prod.fst = acceptedPaths es ∧ report.Perm (completions es) ∧
          p.stats = Stats.ofVerdicts (acceptedPaths es).length (report.map Prod.snd) ∧
          p.stats.settled = p.stats.submitted := by
  let es : List Event :=
    [.accepted "a.ts", .taken 0 "a.ts", .accepted "b.md", .taken 1 "b.md", .accepted "a.ts",
      .ended 1 "b.md" (some (.ok .skipped)), .taken 1 "a.ts", .closed,
      .ended 1 "a.ts" (some (.ok .processed)), .ended 0 "a.ts" (some (.error (.emit "full"))),
      .left 0, .left 1]
  let p : Pool := ⟨1, [], false, [.gone, .gone], ⟨3, 1, 1, 0, 1⟩⟩
  have run : Run (start { workers := 2, queueCapacity := 1 }) es p := Run.refl.replay rfl
  exact ⟨es, p, run, rfl, ⟨rfl, rfl⟩, rfl,
    (stopped_reports_each_acceptance _ run rfl).1 ⟨rfl, rfl⟩⟩

/-! ### Crashes -/

/-- The work on a path crashes exactly if it is one of the paths on which work crashes. -/
def CrashesOn (panics : String → Bool) (es : List Event) : Prop :=
  ∀ i path v, .ended i path v ∈ es → (v = none ↔ panics path = true)

/-- Every accepted occurrence of another path was worked on to its end. -/
def ServesOthers (panics : String → Bool) (es : List Event) : Prop :=
  ((acceptedPaths es).filter fun path => !panics path).Perm ((completions es).map Prod.fst)

section Crashes

variable {panics : String → Bool} {es : List Event}

theorem CrashesOn.of_mem_completions (h : CrashesOn panics es) {path : String}
    (hpath : path ∈ (completions es).map Prod.fst) : panics path = false := by
  obtain ⟨⟨path, v⟩, hv, rfl⟩ := List.mem_map.mp hpath
  obtain ⟨e, he, hsome⟩ := List.mem_filterMap.mp hv
  cases e with
  | ended i path' verdict =>
      cases verdict with
      | none => simp at hsome
      | some w =>
          obtain ⟨rfl, rfl⟩ : path' = path ∧ w = v := by simpa using hsome
          simpa using h i path' (some w) he
  | _ => simp at hsome

theorem CrashesOn.of_mem_crashes (h : CrashesOn panics es) {path : String}
    (hpath : path ∈ crashes es) : panics path = true := by
  obtain ⟨e, he, hsome⟩ := List.mem_filterMap.mp hpath
  cases e with
  | ended i path' verdict =>
      cases verdict with
      | none =>
          obtain rfl : path' = path := by simpa using hsome
          exact (h i path' none he).mp rfl
      | some w => simp at hsome
  | _ => simp at hsome

variable {size : Nat} {p : Pool}

/-- In a deserted pool, the paths that still wait are the ones that were not served. -/
theorem Accounts.servesOthers_iff (acc : Accounts size es p) (h : p.isDeserted = true)
    (hpanics : CrashesOn panics es) :
    ServesOthers panics es ↔ ∀ path ∈ p.queue, panics path = true := by
  have hserved : ((completions es).map Prod.fst).filter (fun path => !panics path) =
      (completions es).map Prod.fst := by
    rw [List.filter_eq_self]
    intro path hpath
    rw [hpanics.of_mem_completions hpath]
    rfl
  have hcrashed : (crashes es).filter (fun path => !panics path) = [] := by
    rw [List.filter_eq_nil_iff]
    intro path hpath
    rw [hpanics.of_mem_crashes hpath]
    decide
  have hothers := (acc.perm_of_isDeserted h).filter fun path => !panics path
  rw [List.filter_append, List.filter_append, hserved, hcrashed, List.append_nil] at hothers
  have hwaiting : (p.queue.filter fun path => !panics path) = [] ↔
      ∀ path ∈ p.queue, panics path = true := by
    simp [List.filter_eq_nil_iff]
  rw [ServesOthers, ← hwaiting]
  constructor
  · intro hall
    have hlen := (hothers.symm.trans hall).length_eq
    rw [List.length_append] at hlen
    exact List.eq_nil_of_length_eq_zero (by omega)
  · intro hnone
    rwa [hnone, List.append_nil] at hothers

/-- What the counters of a deserted pool leave out: the crashed paths and those that wait. -/
theorem Accounts.submitted_eq (acc : Accounts size es p) (h : p.isDeserted = true) :
    p.stats.submitted = p.stats.settled + (crashes es).length + p.queue.length := by
  rw [acc.submitted, acc.settled, (acc.perm_of_isDeserted h).length_eq, List.length_append,
    List.length_append, List.length_map]

theorem Accounts.crashes_length_le (acc : Accounts size es p) (h : p.isDeserted = true)
    (hpanics : CrashesOn panics es) :
    (crashes es).length ≤ (acceptedPaths es).countP panics := by
  have hcrashed : (crashes es).countP panics = (crashes es).length :=
    List.countP_eq_length.mpr fun path hpath => hpanics.of_mem_crashes hpath
  rw [(acc.perm_of_isDeserted h).countP_eq, List.countP_append, List.countP_append]
  omega

end Crashes

/-- A stopped pool has served all paths that do not crash, and its counters add up, exactly if no
accepted path crashes. In general the counters leave out what crashed and what was still waiting;
the other paths are served exactly if none of them waits, and they are when fewer accepted paths
crash than there are workers. -/
theorem stopped_serves_and_counts_iff (o : PoolOptions) (panics : String → Bool)
    {es : List Event} {p : Pool} (run : Run (start o) es p) (hpanics : CrashesOn panics es)
    (hstop : p.Stopped) :
    ((ServesOthers panics es ∧ p.stats.settled = p.stats.submitted) ↔
        ∀ path ∈ acceptedPaths es, panics path = false) ∧
      p.stats.submitted = p.stats.settled + (crashes es).length + p.queue.length ∧
      (ServesOthers panics es ↔ ∀ path ∈ p.queue, panics path = true) ∧
      ((acceptedPaths es).countP panics < max o.workers 1 → ServesOthers panics es) := by
  have acc := run.accounts
  have hperm := acc.perm_of_isDeserted hstop.2
  have hsum := acc.submitted_eq hstop.2
  have hserves := acc.servesOthers_iff hstop.2 hpanics
  have hfew : (crashes es).length < max o.workers 1 → p.queue = [] := by
    intro hlt
    by_contra hqueue
    exact Nat.ne_of_lt hlt (acc.crashes_of_queue_ne_nil hstop.2 hqueue)
  refine ⟨⟨?_, ?_⟩, hsum, hserves, ?_⟩
  · -- The counters leave out nothing, so nothing crashed and nothing waits.
    rintro ⟨-, hcount⟩ path hpath
    have hcrashes : crashes es = [] := List.eq_nil_of_length_eq_zero (by omega)
    have hqueue : p.queue = [] := List.eq_nil_of_length_eq_zero (by omega)
    rw [hcrashes, hqueue, List.append_nil, List.append_nil] at hperm
    exact hpanics.of_mem_completions (hperm.mem_iff.mp hpath)
  · -- No accepted path crashes, so all workers are left and none leaves before the queue is empty.
    intro hcalm
    have hcrashes : crashes es = [] := by
      rw [List.eq_nil_iff_forall_not_mem]
      intro path hpath
      have hmem : path ∈ acceptedPaths es := hperm.mem_iff.mpr (by simp [hpath])
      simpa [hcalm path hmem] using hpanics.of_mem_crashes hpath
    have hqueue := hfew (by rw [hcrashes, List.length_nil]; omega)
    rw [hserves, hqueue, hsum, hcrashes, hqueue]
    simp
  · intro hlt
    have hqueue := hfew (Nat.lt_of_le_of_lt (acc.crashes_length_le hstop.2 hpanics) hlt)
    rw [hserves, hqueue]
    simp

/-- With a second worker the path behind the crash is served, and the counters miss one path. -/
theorem two_workers_serve_others_after_crash :
    ∃ es p, Run (start { workers := 2 }) es p ∧ CrashesOn (· == "t.sql") es ∧ p.Stopped ∧
      acceptedPaths es = ["t.sql", "a.ts"] ∧ ServesOthers (· == "t.sql") es ∧
      p.stats.submitted = 2 ∧ p.stats.settled = 1 := by
  let es : List Event :=
    [.accepted "t.sql", .accepted "a.ts", .taken 0 "t.sql", .ended 0 "t.sql" none,
      .taken 1 "a.ts", .closed, .ended 1 "a.ts" (some (.ok .processed)), .left 1]
  let p : Pool := ⟨100, [], false, [.gone, .gone], ⟨2, 1, 0, 0, 0⟩⟩
  have run : Run (start { workers := 2 }) es p := Run.refl.replay rfl
  have hpanics : CrashesOn (· == "t.sql") es := by
    intro i path v h
    simp only [es, List.mem_cons, List.not_mem_nil, reduceCtorEq, false_or, or_false,
      Event.ended.injEq] at h
    rcases h with ⟨rfl, rfl, rfl⟩ | ⟨rfl, rfl, rfl⟩ <;> decide
  have hserves := (stopped_serves_and_counts_iff _ _ run hpanics ⟨rfl, rfl⟩).2.2.2
  exact ⟨es, p, run, hpanics, ⟨rfl, rfl⟩, rfl, hserves (by decide), rfl, rfl⟩

/-- A script whose trigger runs into the next definition crashes its worker. A walk over this one
file ends well, with a path submitted and nothing counted. With another path waiting behind it the
only worker takes that path with it, and again no counter tells. -/
theorem crash_of_last_worker_loses_waiting_path :
    (∃ processor : Processor, processor.registry = Registry.default ∧
      processor.read "t.sql" =
        .ok { bytes := Utf8.encode "CREATE TRIGGER t ON CREATE TABLE x".toList } ∧
      (Walk.run { workers := 1 } processor none ["t.sql"]).run ({} : Writer) =
        (.ok { pool := { submitted := 1 } }, {})) ∧
    ∃ es p, Run (start { workers := 1 }) es p ∧ CrashesOn (· == "t.sql") es ∧ p.Stopped ∧
      acceptedPaths es = ["t.sql", "a.ts"] ∧ p.stats = { submitted := 2 } ∧
      ¬(ServesOthers (· == "t.sql") es ∧ p.stats.settled = p.stats.submitted) := by
  constructor
  · let processor : Processor :=
      { registry := Registry.default
        embedder := fun texts => .ok (texts.map fun _ => [])
        read := fun _ =>
          .ok { bytes := Utf8.encode "CREATE TRIGGER t ON CREATE TABLE x".toList } }
    have hcrash : processor.study "t.sql" = .crashed := by
      have hstudy : (processor.study "t.sql" matches .crashed) = true := by decide +kernel
      revert hstudy
      cases processor.study "t.sql" <;> simp
    have hassign : Walk.assign? (start { workers := 1 }) "t.sql" =
        some (0, ⟨100, [], true, [.busy "t.sql"], { submitted := 1 }⟩) := rfl
    refine ⟨processor, rfl, rfl, ?_⟩
    change (Walk.feed processor.process none ["t.sql"] (start { workers := 1 })).run _ = _
    simp only [Walk.feed, Walk.serve, hassign, Processor.process, hcrash]
    rfl
  · let es : List Event :=
      [.accepted "t.sql", .accepted "a.ts", .taken 0 "t.sql", .ended 0 "t.sql" none, .closed]
    let p : Pool := ⟨100, ["a.ts"], false, [.gone], { submitted := 2 }⟩
    have run : Run (start { workers := 1 }) es p := Run.refl.replay rfl
    have hpanics : CrashesOn (· == "t.sql") es := by
      intro i path v h
      simp only [es, List.mem_cons, List.not_mem_nil, reduceCtorEq, false_or, or_false,
        Event.ended.injEq] at h
      obtain ⟨rfl, rfl, rfl⟩ := h
      decide
    refine ⟨es, p, run, hpanics, ⟨rfl, rfl⟩, rfl, rfl, ?_⟩
    rintro ⟨hserves, -⟩
    exact absurd hserves.length_eq (by decide)

end CodeGraph.Pool
